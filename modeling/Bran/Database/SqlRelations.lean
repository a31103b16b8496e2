import Bran.Database.SqlGate

/-!
# What the SQL gate confines

The guarantees of the gate over the token stream of an accepted text: one `SELECT`, balanced
parentheses, no forbidden word, only allowed calls, and a `FROM` list that introduces nothing
but allowlisted relations.

The last one is stated over the name chains and tokens of the stream (`items`) and a scan of
its own (`Place`).  `Accepts` is what the loop of `relations` lets pass, as a grammar over the
same items; every fact about the `FROM` list is an induction over it.  A join modifier may be
followed by anything (`Region.modifier`), and there, as with an `ORDER BY` inside parentheses,
the gate falls short: `gate_confines_iff` says exactly when.
-/

namespace Bran.Database

open List Option Validation
open Bool (and_eq_true or_eq_true)

variable {token : Token} {rest tokens : List Token} {allowed found : List RelationName}
  {parts : List Str}

/-! ## Chains and items -/

/-- A name chain or a single token outside every chain. -/
inductive Item
  | chain (parts : List Str)
  | token (token : Token)
  deriving DecidableEq

def itemsFrom : ℕ → List Token → List Item
  | 0, _ => []
  | _ + 1, [] => []
  | fuel + 1, token :: rest =>
      let (parts, next) := chain (token :: rest)
      if parts = [] then .token token :: itemsFrom fuel rest
      else .chain parts :: itemsFrom fuel next

/-- The tokens with every name chain read as one item. -/
def items (tokens : List Token) : List Item := itemsFrom tokens.length tokens

/-- A token that can stand inside a name chain. -/
def Token.InChain (token : Token) : Prop :=
  token.name ≠ none ∨ token = .symbol ['*'] ∨ token = .symbol ['.']

theorem isSymbol_iff {symbol : String} :
    token.isSymbol symbol = true ↔ token = .symbol symbol.toList := by
  rw [Token.isSymbol, decide_eq_true_eq]

theorem isWord_iff {word : String} :
    token.isWord word = true ↔ token = .word word.toList := by
  rw [Token.isWord, decide_eq_true_eq]

theorem inChain_of_part {started : Bool} {part : Str} (h : token.part started = some part) :
    token.InChain := by
  unfold Token.part at h
  cases hname : token.name with
  | some name => exact .inl (by rw [hname]; exact some_ne_none name)
  | none =>
      rw [hname] at h
      by_cases hstar : (started && token.isSymbol "*") = true
      · rw [and_eq_true, isSymbol_iff] at hstar
        exact .inr (.inl hstar.2)
      · rw [if_neg hstar] at h
        cases h

/-- A chain takes tokens off the front, all of them names, dots and stars. -/
theorem chainFrom_spec (started : Bool) (tokens : List Token) :
    ∃ taken, tokens = taken ++ (chainFrom started tokens).2 ∧
      ((chainFrom started tokens).1 = [] ↔ taken = []) ∧ ∀ token ∈ taken, token.InChain := by
  fun_induction chainFrom started tokens with
  | case1 | case2 => exact ⟨[], rfl, by simp, by simp⟩
  | case3 started token part hpart =>
      exact ⟨[token], rfl, by simp, by simpa using inChain_of_part hpart⟩
  | case4 started token part hpart dot after hdot tail ih =>
      obtain ⟨taken, hafter, _, hchain⟩ := ih
      refine ⟨token :: dot :: taken, congrArg (token :: dot :: ·) hafter, by simp, ?_⟩
      rw [forall_mem_cons, forall_mem_cons]
      exact ⟨inChain_of_part hpart, .inr (.inr (isSymbol_iff.mp hdot)), hchain⟩
  | case5 started token part hpart dot after =>
      exact ⟨[token], rfl, by simp, by simpa using inChain_of_part hpart⟩

/-- A chain leaves tokens untouched, or takes at least one. -/
theorem chain_cons_spec (token : Token) (rest : List Token) :
    ((chain (token :: rest)).1 = [] ∧ (chain (token :: rest)).2 = token :: rest) ∨
      ((chain (token :: rest)).1 ≠ [] ∧ (chain (token :: rest)).2.length ≤ rest.length) := by
  obtain ⟨taken, heq, hnil, _⟩ := chainFrom_spec false (token :: rest)
  by_cases h : (chain (token :: rest)).1 = []
  · obtain rfl := hnil.mp h
    exact .inl ⟨h, heq.symm⟩
  · have hne : taken ≠ [] := fun htaken => h (hnil.mpr htaken)
    have hlen := congrArg List.length heq
    rw [length_append, length_cons] at hlen
    have hpos := length_pos_of_ne_nil hne
    exact .inr ⟨h, by unfold chain; omega⟩

theorem itemsFrom_fuel {fuel fuel' : ℕ} (h : tokens.length ≤ fuel) (h' : tokens.length ≤ fuel') :
    itemsFrom fuel tokens = itemsFrom fuel' tokens := by
  induction fuel generalizing fuel' tokens with
  | zero =>
      obtain rfl := length_eq_zero_iff.mp (Nat.le_zero.mp h)
      cases fuel' <;> rfl
  | succ fuel ih =>
      cases tokens with
      | nil => cases fuel' <;> rfl
      | cons token rest =>
          cases fuel' with
          | zero => simp at h'
          | succ fuel' =>
              rw [length_cons] at h h'
              rw [itemsFrom, itemsFrom]
              dsimp only
              obtain ⟨hnil, _⟩ | ⟨hne, hlen⟩ := chain_cons_spec token rest
              · rw [if_pos hnil, if_pos hnil, @ih _ fuel' (by omega) (by omega)]
              · rw [if_neg hne, if_neg hne, @ih _ fuel' (by omega) (by omega)]

theorem items_token (h : (chain (token :: rest)).1 = []) :
    items (token :: rest) = .token token :: items rest := by
  rw [items, length_cons, itemsFrom]
  exact if_pos h

theorem items_chain (h : (chain (token :: rest)).1 ≠ []) :
    items (token :: rest) = .chain (chain (token :: rest)).1 :: items (chain (token :: rest)).2 := by
  obtain ⟨hnil, _⟩ | ⟨_, hlen⟩ := chain_cons_spec token rest
  · exact absurd hnil h
  · rw [items, length_cons, itemsFrom, items, ← itemsFrom_fuel hlen le_rfl]
    exact if_neg h

/-- A token that is no name starts no chain. -/
theorem chain_of_name_eq_none (h : token.name = none) (rest : List Token) :
    chain (token :: rest) = ([], token :: rest) := by
  have hpart : token.part false = none := by
    rw [Token.part, h]
    rfl
  rw [chain, chainFrom, hpart]

/-- A name before something other than a dot is a chain of one part. -/
theorem chain_of_single {name : Str} (h : token.name = some name)
    (hrest : ∀ next ∈ rest.head?, next.isSymbol "." = false) :
    chain (token :: rest) = ([name], rest) := by
  have hpart : token.part false = some name := by
    rw [Token.part, h]
    rfl
  rw [chain, chainFrom, hpart]
  cases rest with
  | nil => rfl
  | cons next tail =>
      have hdot := hrest next rfl
      simp only [hdot]
      rfl

/-! ## The scan -/

/-- Where a position stands with respect to the `FROM` list. -/
inductive Region
  | outside
  /-- A relation may stand here, with its alias. -/
  | relation
  /-- After a join modifier. -/
  | modifier
  /-- In an `ON` condition. -/
  | condition
  deriving DecidableEq

/-- The words before `JOIN` that say what kind of join it is. -/
def joinModifiers : List Str := ["inner", "left", "outer", "cross"].map String.toList

/-- A position of a token stream: its parenthesis depth and region. -/
structure Place where
  depth : ℕ
  region : Region
  deriving DecidableEq

namespace Place

/-- Before the first token. -/
def start : Place := ⟨0, .outside⟩

/-- Whether a token at this place introduces a relation. -/
def opens (place : Place) (token : Token) : Prop :=
  place.depth = 0 ∧ (token = .word "from".toList ∨
    place.region ≠ .outside ∧ (token = .word "join".toList ∨ token = .symbol [',']))

instance (place : Place) (token : Token) : Decidable (place.opens token) :=
  inferInstanceAs (Decidable (_ ∧ _))

def after (place : Place) : Item → Place
  | .chain _ => place
  | .token token =>
      if token = .symbol ['('] then ⟨place.depth + 1, place.region⟩
      else if token = .symbol [')'] then ⟨place.depth - 1, place.region⟩
      else if place.depth ≠ 0 then place
      else if place.opens token then ⟨0, .relation⟩
      else if token.isWordOf fromEnd then ⟨0, .outside⟩
      else if place.region = .outside then place
      else if token.isWordOf joinModifiers then ⟨0, .modifier⟩
      else if token = .word "on".toList then ⟨0, .condition⟩
      else place

/-- The place after a sequence of items. -/
def afterAll (place : Place) (items : List Item) : Place := items.foldl after place

/-- In the `FROM` list at parenthesis depth zero, outside every `ON` condition. -/
def inFromList (place : Place) : Prop :=
  place.depth = 0 ∧ (place.region = .relation ∨ place.region = .modifier)

end Place

/-! ## What the loop accepts -/

/-- The items of an alias, or none. -/
inductive IsAlias : List Item → Prop
  | absent : IsAlias []
  | bare (name : Str) : IsAlias [.chain [name]]
  | named (name : Str) : IsAlias [.token (.word "as".toList), .chain [name]]

/-- The end, a comma, a join keyword, `ON`, or a clause word. -/
def Follows (items : List Item) : Prop :=
  items = [] ∨ ∃ token rest, items = .token token :: rest ∧
    (token = .symbol [','] ∨ token.isWordOf relationFollowers = true)

/-- The item sequences that `relations` lets pass from a place, with the relations introduced. -/
inductive Accepts (allowed : List RelationName) : Place → List Item → List RelationName → Prop
  | done {place : Place} : place.depth = 0 → Accepts allowed place [] []
  | chain {place : Place} {parts : List Str} {rest : List Item} {found : List RelationName} :
      parts.length ≤ 3 → Accepts allowed place rest found →
      Accepts allowed place (.chain parts :: rest) found
  | token {place : Place} {token : Token} {rest : List Item} {found : List RelationName} :
      ¬ place.opens token → (token = .symbol [')'] → place.depth ≠ 0) →
      Accepts allowed (place.after (.token token)) rest found →
      Accepts allowed place (.token token :: rest) found
  | relation {place : Place} {token : Token} {name : RelationName} {label rest : List Item}
      {found : List RelationName} :
      place.opens token → name ∈ allowed → IsAlias label → Follows rest →
      Accepts allowed ⟨0, .relation⟩ rest found →
      Accepts allowed place (.token token :: .chain name.parts :: (label ++ rest)) (name :: found)

theorem not_mem_of_validPart {part : Str} (h : validPart part = true) : '.' ∉ part := by
  intro hmem
  rw [validPart, and_eq_true, List.all_eq_true] at h
  exact absurd (h.2 '.' hmem) (by decide)

/-- A dotted text that parses does so at the dot that was put in. -/
theorem parts_of_parse {schema relation : Str} {name : RelationName}
    (h : RelationName.parse (schema ++ '.' :: relation) = some name) :
    name.parts = [schema, relation] := by
  unfold RelationName.parse at h
  cases hsplit : Text.splitOnce '.' (schema ++ '.' :: relation) with
  | none =>
      rw [hsplit] at h
      cases h
  | some halves =>
      obtain ⟨head, tail⟩ := halves
      rw [hsplit] at h
      dsimp only at h
      by_cases hvalid : validPart head = true ∧ validPart tail = true
      · rw [dif_pos hvalid] at h
        cases h
        obtain ⟨heq, hhead⟩ := Text.splitOnce_eq_some hsplit
        have htail := not_mem_of_validPart hvalid.2
        obtain ⟨more, rfl, hrest⟩ | ⟨more, rfl, hrest⟩ := append_eq_append_iff.mp heq
        · cases more with
          | nil =>
              rw [nil_append] at hrest
              cases hrest
              show [schema ++ [], relation] = _
              rw [append_nil]
          | cons c more =>
              obtain ⟨rfl, _⟩ := List.cons.inj hrest
              simp at hhead
        · cases more with
          | nil =>
              rw [nil_append] at hrest
              cases hrest
              rw [RelationName.parts, append_nil]
          | cons c more =>
              obtain ⟨_, rfl⟩ := List.cons.inj hrest
              simp at htail
      · rw [dif_neg hvalid] at h
        cases h

theorem relationOf_eq_ok {name : RelationName} (h : relationOf allowed parts = .ok name) :
    name ∈ allowed ∧ name.parts = parts := by
  unfold relationOf at h
  split at h
  · cases h
  · cases h
  · rename_i schema relation
    split at h
    · rename_i found hfound
      cases h
      obtain ⟨hparse, hallowed⟩ := filter_eq_some_iff.mp hfound
      exact ⟨of_decide_eq_true hallowed, parts_of_parse hparse⟩
    · cases h
  · cases h

/-- A follower of a relation is no name, and no dot. -/
theorem follower_spec (h : (token.isSymbol "," || token.isWordOf relationFollowers) = true) :
    token.name = none ∧ token.isSymbol "." = false ∧
      (token = .symbol [','] ∨ token.isWordOf relationFollowers = true) := by
  rw [or_eq_true, isSymbol_iff] at h
  obtain rfl | hword := h
  · exact ⟨rfl, rfl, .inl rfl⟩
  · refine ⟨?_, ?_, .inr hword⟩
    · cases token with
      | word text =>
          have hgrammar : ∀ word ∈ relationFollowers, word ∈ grammarWords := by decide
          exact if_pos (hgrammar text (of_decide_eq_true hword))
      | _ => cases hword
    · cases token with
      | word text => rfl
      | _ => cases hword

theorem follows_of_checkFollower (h : checkFollower tokens = .ok ()) :
    Follows (items tokens) ∧ ∀ next ∈ tokens.head?, next.isSymbol "." = false := by
  cases tokens with
  | nil => exact ⟨.inl rfl, fun next h => by cases h⟩
  | cons token rest =>
      rw [checkFollower] at h
      split_ifs at h with hfollower
      obtain ⟨hname, hdot, hclass⟩ := follower_spec hfollower
      have hitems := items_token (by rw [chain_of_name_eq_none hname rest])
      refine ⟨.inr ⟨token, items rest, hitems, hclass⟩, fun next hnext => ?_⟩
      cases hnext
      exact hdot

theorem skipAlias_eq_ok {next : List Token} (h : skipAlias tokens = .ok next)
    (hnext : checkFollower next = .ok ()) :
    ∃ label, IsAlias label ∧ items tokens = label ++ items next := by
  obtain ⟨_, hdot⟩ := follows_of_checkFollower hnext
  cases tokens with
  | nil =>
      cases h
      exact ⟨[], .absent, rfl⟩
  | cons token rest =>
      rw [skipAlias.eq_def] at h
      dsimp only at h
      by_cases has : token.isWord "as" = true
      · rw [if_pos has, isWord_iff.mp has] at *
        cases rest with
        | nil => cases h
        | cons label after =>
            dsimp only at h
            cases hname : label.name with
            | none =>
                rw [if_pos hname] at h
                cases h
            | some name =>
                rw [if_neg (by rw [hname]; exact some_ne_none name)] at h
                cases h
                have hchain := chain_of_single hname hdot
                refine ⟨_, .named name, ?_⟩
                rw [items_token (by rw [chain_of_name_eq_none (by rfl)]), items_chain, hchain]
                · rfl
                · rw [hchain]
                  exact cons_ne_nil name []
      · rw [if_neg has] at h
        cases hname : token.name with
        | none =>
            rw [if_neg (by rw [hname]; exact fun h => h rfl)] at h
            cases h
            exact ⟨[], .absent, rfl⟩
        | some name =>
            rw [if_pos (by rw [hname]; exact some_ne_none name)] at h
            cases h
            have hchain := chain_of_single hname hdot
            refine ⟨_, .bare name, ?_⟩
            rw [items_chain, hchain]
            · rfl
            · rw [hchain]
              exact cons_ne_nil name []

theorem isSymbol_eq_false {symbol : String} (h : token ≠ .symbol symbol.toList) :
    token.isSymbol symbol = false := decide_eq_false h

theorem isWord_eq_false {word : String} (h : token ≠ .word word.toList) :
    token.isWord word = false := decide_eq_false h

/-- A token that introduces a relation is no name, no parenthesis and no clause word. -/
theorem opens_spec {place : Place} (h : place.opens token) :
    place.depth = 0 ∧ token.name = none ∧ token ≠ .symbol ['('] ∧ token ≠ .symbol [')'] ∧
      token.isWordOf fromEnd = false ∧ (token.isWord "from" = true ∨
        place.region ≠ .outside ∧ (token.isWord "join" || token.isSymbol ",") = true) := by
  obtain ⟨hdepth, rfl | ⟨hregion, rfl | rfl⟩⟩ := h
  · exact ⟨hdepth, by decide, by decide, by decide, by decide, .inl rfl⟩
  · exact ⟨hdepth, by decide, by decide, by decide, by decide, .inr ⟨hregion, rfl⟩⟩
  · exact ⟨hdepth, by decide, by decide, by decide, by decide, .inr ⟨hregion, rfl⟩⟩

theorem nextDepth_other (hopen : token ≠ .symbol ['(']) (hclose : token ≠ .symbol [')']) (depth : ℕ) :
    nextDepth depth token = .ok depth := by
  rw [nextDepth, isSymbol_eq_false hopen, isSymbol_eq_false hclose]
  rfl

theorem startsRelation_iff {place : Place} {depth : ℕ}
    (hdepth : nextDepth place.depth token = .ok depth) :
    startsRelation depth
      (decide (place.region ≠ .outside) && !(decide (depth = 0) && token.isWordOf fromEnd)) token =
        true ↔ place.opens token := by
  constructor
  · intro h
    rw [startsRelation, and_eq_true, decide_eq_true_eq, or_eq_true, and_eq_true,
      and_eq_true, decide_eq_true_eq, or_eq_true, isWord_iff, isWord_iff,
      isSymbol_iff] at h
    obtain ⟨rfl, htoken⟩ := h
    have hother : token ≠ .symbol ['('] ∧ token ≠ .symbol [')'] := by
      obtain rfl | ⟨_, rfl | rfl⟩ := htoken <;> decide
    rw [nextDepth_other hother.1 hother.2] at hdepth
    exact ⟨Except.ok.inj hdepth, htoken.imp_right fun h => ⟨h.1.1, h.2⟩⟩
  · intro h
    obtain ⟨hzero, _, hopen, hclose, hend, hclass⟩ := opens_spec h
    rw [nextDepth_other hopen hclose, hzero] at hdepth
    cases hdepth
    rw [startsRelation, hend]
    obtain hfrom | ⟨hregion, hjoin⟩ := hclass
    · rw [hfrom]
      rfl
    · rw [hjoin, decide_eq_true hregion]
      simp

/-- The place after a token that is no parenthesis and introduces no relation. -/
theorem after_other {place : Place} (hopen : token ≠ .symbol ['(']) (hclose : token ≠ .symbol [')'])
    (hopens : ¬ place.opens token) :
    place.after (.token token) =
      if place.depth ≠ 0 then place
      else if token.isWordOf fromEnd then ⟨0, .outside⟩
      else if place.region = .outside then place
      else if token.isWordOf joinModifiers then ⟨0, .modifier⟩
      else if token = .word "on".toList then ⟨0, .condition⟩
      else place := by
  unfold Place.after
  dsimp only
  rw [if_neg hopen, if_neg hclose, if_neg hopens]

/-- The depth and the flag of the loop after a token that introduces no relation. -/
theorem after_token_spec {place : Place} {depth : ℕ}
    (hdepth : nextDepth place.depth token = .ok depth) (hopens : ¬ place.opens token) :
    (place.after (.token token)).depth = depth ∧
      decide ((place.after (.token token)).region ≠ .outside) =
        (decide (place.region ≠ .outside) && !(decide (depth = 0) && token.isWordOf fromEnd)) ∧
      (token = .symbol [')'] → place.depth ≠ 0) := by
  by_cases hopen : token = .symbol ['(']
  · subst hopen
    cases hdepth
    exact ⟨rfl, by simp [Place.after, Token.isWordOf], fun h => absurd h (by decide)⟩
  by_cases hclose : token = .symbol [')']
  · subst hclose
    have hdepth : (if place.depth = 0 then .error .malformed else .ok (place.depth - 1)) =
        Except.ok (ε := SqlRejection) depth := hdepth
    by_cases hzero : place.depth = 0
    · rw [if_pos hzero] at hdepth
      cases hdepth
    · rw [if_neg hzero] at hdepth
      cases hdepth
      exact ⟨rfl, by simp [Place.after, Token.isWordOf], fun _ => hzero⟩
  rw [nextDepth_other hopen hclose] at hdepth
  cases hdepth
  have hplace := after_other hopen hclose hopens
  by_cases hzero : place.depth = 0
  · rw [if_neg (not_not.mpr hzero)] at hplace
    by_cases hend : token.isWordOf fromEnd = true
    · rw [if_pos hend] at hplace
      rw [hplace, hend]
      exact ⟨hzero.symm, by simp [hzero], fun h => absurd h hclose⟩
    · rw [if_neg hend] at hplace
      rw [Bool.eq_false_iff.mpr hend]
      by_cases hregion : place.region = .outside
      · rw [if_pos hregion] at hplace
        rw [hplace]
        exact ⟨rfl, by simp, fun h => absurd h hclose⟩
      · rw [if_neg hregion] at hplace
        -- inside the list the region changes, but it stays inside
        have hinside : (place.after (.token token)).depth = 0 ∧
            (place.after (.token token)).region ≠ .outside := by
          rw [hplace]
          split_ifs
          · exact ⟨rfl, by decide⟩
          · exact ⟨rfl, by decide⟩
          · exact ⟨hzero, hregion⟩
        refine ⟨hinside.1.trans hzero.symm, ?_, fun h => absurd h hclose⟩
        rw [decide_eq_true hinside.2, decide_eq_true hregion]
        simp
  · rw [if_pos hzero] at hplace
    rw [hplace]
    exact ⟨rfl, by simp [hzero], fun h => absurd h hclose⟩

/-- A token that starts a chain changes neither the depth nor the flag of the loop. -/
theorem chain_token_spec (h : (chain (token :: rest)).1 ≠ []) :
    token ≠ .symbol ['('] ∧ token ≠ .symbol [')'] ∧ token.isWordOf fromEnd = false := by
  have hname : token.name ≠ none := by
    intro hname
    rw [chain_of_name_eq_none hname] at h
    exact h rfl
  refine ⟨?_, ?_, ?_⟩
  · rintro rfl
    exact hname rfl
  · rintro rfl
    exact hname rfl
  · cases token with
    | word text =>
        have hgrammar : ∀ word ∈ fromEnd, word ∈ grammarWords := by decide
        apply decide_eq_false
        intro hend
        exact hname (if_pos (hgrammar text hend))
    | _ => rfl

/-- Everything `relations` lets pass is accepted, and it finds the relations introduced. -/
theorem accepts_of_relationsFrom {allowed : List RelationName} {fuel : ℕ} {place : Place}
    {found result : List RelationName} {tokens : List Token}
    (h : relationsFrom allowed fuel place.depth (decide (place.region ≠ .outside)) found tokens =
      .ok result) :
    ∃ introduced, Accepts allowed place (items tokens) introduced ∧
      result = Validation.normalize (introduced.reverse ++ found) := by
  induction fuel generalizing place found tokens with
  | zero => cases h
  | succ fuel ih =>
      cases tokens with
      | nil =>
          rw [relationsFrom, check_bind_eq_ok_iff, failIf_eq_ok_iff,
            not_not] at h
          obtain ⟨hdepth, h⟩ := h
          cases h
          exact ⟨[], .done hdepth, rfl⟩
      | cons token rest =>
          rw [relationsFrom, bind_eq_ok_iff] at h
          obtain ⟨depth, hdepth, h⟩ := h
          dsimp only at h
          by_cases hopens : place.opens token
          · -- a relation, with its alias
            have hstarts := (startsRelation_iff hdepth).mpr hopens
            rw [if_pos hstarts] at h
            obtain ⟨hzero, hname, _⟩ := opens_spec hopens
            have hdepth0 : depth = 0 := by
              rw [startsRelation, and_eq_true, decide_eq_true_eq] at hstarts
              exact hstarts.1
            subst hdepth0
            obtain ⟨name, hrelation, h⟩ := bind_eq_ok_iff.mp h
            obtain ⟨next, hnext, h⟩ := bind_eq_ok_iff.mp h
            obtain ⟨hfollower, h⟩ := check_bind_eq_ok_iff.mp h
            obtain ⟨hallowed, hparts⟩ := relationOf_eq_ok hrelation
            obtain ⟨label, hlabel, hlabels⟩ := skipAlias_eq_ok hnext hfollower
            have hloop : relationsFrom allowed fuel (Place.mk 0 .relation).depth
                (decide ((Place.mk 0 .relation).region ≠ .outside)) (name :: found) next =
                  .ok result := h
            obtain ⟨introduced, haccepts, hresult⟩ := ih hloop
            have hitems : items (token :: rest) =
                .token token :: .chain name.parts :: (label ++ items next) := by
              rw [items_token (by rw [chain_of_name_eq_none hname]), hparts, ← hlabels]
              cases rest with
              | nil => exact absurd hparts (cons_ne_nil _ _)
              | cons first rest => exact congrArg _ (items_chain (by rw [← hparts]; exact cons_ne_nil _ _))
            refine ⟨name :: introduced, ?_, ?_⟩
            · rw [hitems]
              exact .relation hopens hallowed hlabel (follows_of_checkFollower hfollower).1 haccepts
            · rw [hresult, reverse_cons, append_assoc]
              rfl
          · have hstarts : ¬ _ = true := mt (startsRelation_iff hdepth).mp hopens
            rw [if_neg hstarts] at h
            obtain ⟨hlong, h⟩ := check_bind_eq_ok_iff.mp h
            rw [failIf_eq_ok_iff, not_lt] at hlong
            by_cases hnil : (chain (token :: rest)).1 = []
            · -- a single token
              rw [if_pos hnil] at h
              obtain ⟨hafter, hregion, hclose⟩ := after_token_spec hdepth hopens
              rw [← hregion, ← hafter] at h
              obtain ⟨introduced, haccepts, hresult⟩ := ih h
              rw [items_token hnil]
              exact ⟨introduced, .token hopens hclose haccepts, hresult⟩
            · -- a name chain outside the places where one is expected
              rw [if_neg hnil] at h
              obtain ⟨hopen, hclose, hend⟩ := chain_token_spec hnil
              rw [nextDepth_other hopen hclose] at hdepth
              cases hdepth
              rw [hend, Bool.and_false, Bool.not_false, Bool.and_true] at h
              obtain ⟨introduced, haccepts, hresult⟩ := ih h
              rw [items_chain hnil]
              exact ⟨introduced, .chain hlong haccepts, hresult⟩

/-! ## Facts about accepted items -/

/-- Whether parentheses are balanced, from a depth on. -/
def balancedFrom : ℕ → List Token → Bool
  | depth, [] => depth = 0
  | depth, token :: rest =>
      if token = .symbol ['('] then balancedFrom (depth + 1) rest
      else if token = .symbol [')'] then depth ≠ 0 && balancedFrom (depth - 1) rest
      else balancedFrom depth rest

theorem balancedFrom_other (hopen : token ≠ .symbol ['(']) (hclose : token ≠ .symbol [')'])
    (depth : ℕ) (rest : List Token) :
    balancedFrom depth (token :: rest) = balancedFrom depth rest := by
  rw [balancedFrom, if_neg hopen, if_neg hclose]

theorem not_parenthesis_of_inChain (h : token.InChain) :
    token ≠ .symbol ['('] ∧ token ≠ .symbol [')'] := by
  constructor
  · rintro rfl
    exact absurd h (by unfold Token.InChain; decide)
  · rintro rfl
    exact absurd h (by unfold Token.InChain; decide)

theorem balancedFrom_append {taken : List Token} (h : ∀ token ∈ taken, token.InChain) (depth : ℕ)
    (rest : List Token) : balancedFrom depth (taken ++ rest) = balancedFrom depth rest := by
  induction taken with
  | nil => rfl
  | cons token taken ih =>
      rw [forall_mem_cons] at h
      obtain ⟨hopen, hclose⟩ := not_parenthesis_of_inChain h.1
      rw [cons_append, balancedFrom_other hopen hclose, ih h.2]

/-- The depth of the place follows the parentheses. -/
theorem depth_after_token (place : Place) (token : Token) :
    (place.after (.token token)).depth =
      if token = .symbol ['('] then place.depth + 1
      else if token = .symbol [')'] then place.depth - 1 else place.depth := by
  unfold Place.after
  dsimp only
  by_cases hopen : token = .symbol ['(']
  · rw [if_pos hopen, if_pos hopen]
  by_cases hclose : token = .symbol [')']
  · rw [if_neg hopen, if_neg hopen, if_pos hclose, if_pos hclose]
  rw [if_neg hopen, if_neg hclose, if_neg hopen, if_neg hclose]
  by_cases hzero : place.depth = 0
  · rw [if_neg (not_not.mpr hzero), hzero]
    split_ifs <;> first | rfl | exact hzero
  · rw [if_pos hzero]

theorem after_of_opens {place : Place} (h : place.opens token) :
    place.after (.token token) = ⟨0, .relation⟩ := by
  obtain ⟨hzero, _, hopen, hclose, _⟩ := opens_spec h
  unfold Place.after
  dsimp only
  rw [if_neg hopen, if_neg hclose, if_neg (not_not.mpr hzero), if_pos h]

/-- Whether the parentheses among items are balanced, from a depth on. -/
def balancedItems : ℕ → List Item → Bool
  | depth, [] => depth = 0
  | depth, .chain _ :: rest => balancedItems depth rest
  | depth, .token token :: rest =>
      if token = .symbol ['('] then balancedItems (depth + 1) rest
      else if token = .symbol [')'] then depth ≠ 0 && balancedItems (depth - 1) rest
      else balancedItems depth rest

/-- No parenthesis is part of a name chain. -/
theorem balancedFrom_eq (depth : ℕ) (tokens : List Token) :
    balancedFrom depth tokens = balancedItems depth (items tokens) := by
  induction hlength : tokens.length using Nat.strongRecOn generalizing depth tokens with
  | ind length ih =>
      cases tokens with
      | nil => rfl
      | cons token rest =>
          rw [length_cons] at hlength
          obtain ⟨hnil, _⟩ | ⟨hne, hshort⟩ := chain_cons_spec token rest
          · have hrest := fun depth => ih rest.length (by omega) depth rest rfl
            rw [items_token hnil, balancedFrom, balancedItems, hrest, hrest, hrest]
          · obtain ⟨taken, htaken, _, hchain⟩ := chainFrom_spec false (token :: rest)
            have htaken : token :: rest = taken ++ (chain (token :: rest)).2 := htaken
            rw [items_chain hne, balancedItems, ← ih _ (by omega) depth _ rfl]
            conv_lhs => rw [htaken]
            exact balancedFrom_append hchain depth _

theorem balanced_of_accepts {place : Place} {items : List Item}
    (h : Accepts allowed place items found) :
    balancedItems place.depth items = true := by
  induction h with
  | done hzero => exact decide_eq_true hzero
  | chain _ _ ih => exact ih
  | @token place token rest found _ hclose _ ih =>
      rw [depth_after_token] at ih
      rw [balancedItems]
      by_cases hopen : token = .symbol ['(']
      · rw [if_pos hopen] at ih ⊢
        exact ih
      by_cases hclosed : token = .symbol [')']
      · rw [if_neg hopen, if_pos hclosed] at ih ⊢
        rw [ih, Bool.and_true]
        exact decide_eq_true (hclose hclosed)
      · rw [if_neg hopen, if_neg hclosed] at ih ⊢
        exact ih
  | @relation place token name label rest found hopens _ hlabel _ _ ih =>
      obtain ⟨hzero, _, hopen, hclose, _⟩ := opens_spec hopens
      rw [balancedItems, if_neg hopen, if_neg hclose, hzero, balancedItems]
      cases hlabel with
      | absent | bare name | named name => exact ih

/-! ## The relations introduced -/

/-- `FROM`, a join or a comma introduces the chain. -/
def Introduces (place : Place) (items : List Item) (parts : List Str) : Prop :=
  ∃ before token after, items = before ++ .token token :: .chain parts :: after ∧
    (place.afterAll before).opens token

theorem introduces_cons {place : Place} {item : Item} {rest : List Item} :
    Introduces place (item :: rest) parts ↔
      (∃ token after, item = .token token ∧ rest = .chain parts :: after ∧ place.opens token) ∨
        Introduces (place.after item) rest parts := by
  constructor
  · intro h
    obtain ⟨before, token, after, heq, hopens⟩ := h
    cases before with
    | nil =>
        obtain ⟨rfl, rfl⟩ := List.cons.inj heq
        exact .inl ⟨token, after, rfl, rfl, hopens⟩
    | cons first before =>
        obtain ⟨rfl, rfl⟩ := List.cons.inj heq
        exact .inr ⟨before, token, after, rfl, hopens⟩
  · intro h
    obtain ⟨token, after, rfl, rfl, hopens⟩ | ⟨before, token, after, rfl, hopens⟩ := h
    · exact ⟨[], token, after, rfl, hopens⟩
    · exact ⟨item :: before, token, after, rfl, hopens⟩

theorem introduces_chain {place : Place} {chain : List Str} {rest : List Item} :
    Introduces place (.chain chain :: rest) parts ↔ Introduces place rest parts := by
  rw [introduces_cons]
  constructor
  · intro h
    obtain ⟨token, _, heq, _⟩ | h := h
    · cases heq
    · exact h
  · exact .inr

theorem introduces_token {place : Place} {rest : List Item} (hopens : ¬ place.opens token) :
    Introduces place (.token token :: rest) parts ↔
      Introduces (place.after (.token token)) rest parts := by
  rw [introduces_cons]
  constructor
  · intro h
    obtain ⟨_, _, heq, _, h⟩ | h := h
    · cases heq
      exact absurd h hopens
    · exact h
  · exact .inr

/-- An alias introduces nothing and leaves the place as it is. -/
theorem introduces_label {label rest : List Item} (h : IsAlias label) :
    Introduces ⟨0, .relation⟩ (label ++ rest) parts ↔ Introduces ⟨0, .relation⟩ rest parts := by
  cases h with
  | absent => exact Iff.rfl
  | bare name => exact introduces_chain
  | named name =>
      rw [cons_append, introduces_token (by decide)]
      exact introduces_chain

/-- The relations found are those introduced. -/
theorem introduces_iff {place : Place} {items : List Item} (h : Accepts allowed place items found)
    (parts : List Str) :
    Introduces place items parts ↔ ∃ name ∈ found, name.parts = parts := by
  induction h with
  | done _ =>
      constructor
      · intro h
        obtain ⟨before, token, after, heq, _⟩ := h
        cases before <;> cases heq
      · intro h
        obtain ⟨name, hname, _⟩ := h
        cases hname
  | chain _ _ ih => rw [introduces_chain, ih]
  | token hopens _ _ ih => rw [introduces_token hopens, ih]
  | @relation place token name label rest found hopens _ hlabel _ _ ih =>
      have hfound : (∃ other ∈ name :: found, other.parts = parts) ↔
          name.parts = parts ∨ ∃ other ∈ found, other.parts = parts := by
        simp only [mem_cons, or_and_right, exists_or, exists_eq_left]
      rw [introduces_cons, after_of_opens hopens, introduces_chain, introduces_label hlabel, ih,
        hfound]
      apply or_congr_left
      constructor
      · intro h
        obtain ⟨_, _, _, heq, _⟩ := h
        cases heq
        rfl
      · intro h
        exact ⟨token, _, rfl, by rw [h], hopens⟩

theorem allowed_of_accepts {place : Place} {items : List Item}
    (h : Accepts allowed place items found) :
    ∀ name ∈ found, name ∈ allowed := by
  induction h with
  | done _ => exact fun _ h => absurd h not_mem_nil
  | chain _ _ ih => exact ih
  | token _ _ _ ih => exact ih
  | relation _ hallowed _ _ _ ih => exact forall_mem_cons.mpr ⟨hallowed, ih⟩

/-! ## The chains of the list -/

/-- A chain that is one of some relations, or the alias written after one. -/
def Listed (names : List Str → Prop) (before : List Item) (parts : List Str) : Prop :=
  names parts ∨ ∃ label relation earlier, parts = [label] ∧ names relation ∧
    (before = earlier ++ [.chain relation] ∨
      before = earlier ++ [.chain relation, .token (.word "as".toList)])

theorem Listed.cons {names : List Str → Prop} {before : List Item} {parts : List Str}
    (h : Listed names before parts) (item : Item) : Listed names (item :: before) parts := by
  obtain h | ⟨label, relation, earlier, hparts, hnames, hbefore⟩ := h
  · exact .inl h
  · refine .inr ⟨label, relation, item :: earlier, hparts, hnames, ?_⟩
    exact hbefore.imp (congrArg (item :: ·)) (congrArg (item :: ·))

/-- Whether the next item is one that may stand after a relation and its alias. -/
def Ready (place : Place) (items : List Item) : Prop :=
  place.region = .relation → place.depth = 0 ∧ Follows items

/-- A token that introduces no relation leads away from where one may stand. -/
theorem region_after_ne {place : Place} {rest : List Item} (hopens : ¬ place.opens token)
    (hready : Ready place (.token token :: rest)) :
    (place.after (.token token)).region ≠ .relation := by
  intro hregion
  by_cases hplace : place.region = .relation
  · obtain ⟨hzero, hnil | ⟨first, after, heq, hfollower⟩⟩ := hready hplace
    · cases hnil
    · cases heq
      have hinside : place.region ≠ .outside := by
        rw [hplace]
        decide
      obtain rfl | hword := hfollower
      · exact hopens ⟨hzero, .inr ⟨hinside, .inr rfl⟩⟩
      · cases token with
        | word text =>
            rw [after_other (by simp) (by simp) hopens, if_neg (not_not.mpr hzero)] at hregion
            have hclasses : ∀ word ∈ relationFollowers, word = "join".toList ∨ word ∈ fromEnd ∨
                word ∈ joinModifiers ∨ word = "on".toList := by decide
            have htext := hclasses text (of_decide_eq_true hword)
            by_cases hend : (Token.word text).isWordOf fromEnd = true
            · rw [if_pos hend] at hregion
              cases hregion
            rw [if_neg hend, if_neg hinside] at hregion
            by_cases hmodifier : (Token.word text).isWordOf joinModifiers = true
            · rw [if_pos hmodifier] at hregion
              cases hregion
            rw [if_neg hmodifier] at hregion
            obtain rfl | h | h | rfl := htext
            · exact hopens ⟨hzero, .inr ⟨hinside, .inl rfl⟩⟩
            · exact hend (decide_eq_true h)
            · exact hmodifier (decide_eq_true h)
            · rw [if_pos rfl] at hregion
              cases hregion
        | _ => cases hword
  · -- outside it, only an opening token leads there
    by_cases hopen : token = .symbol ['(']
    · subst hopen
      exact hplace hregion
    by_cases hclose : token = .symbol [')']
    · subst hclose
      exact hplace hregion
    rw [after_other hopen hclose hopens] at hregion
    split_ifs at hregion
    · exact hplace hregion
    · exact hplace hregion
    · exact hplace hregion

/-- Where a relation may stand in an accepted sequence, every chain is a relation found or the
alias written after it. -/
theorem listed_of_accepts {place : Place} {items : List Item}
    (h : Accepts allowed place items found) (hready : Ready place items) {names : List Str → Prop}
    (hnames : ∀ name ∈ found, names name.parts) {before after : List Item}
    (hitems : items = before ++ .chain parts :: after)
    (hplace : (place.afterAll before).region = .relation) : Listed names before parts := by
  induction h generalizing before with
  | done _ => cases before <;> cases hitems
  | @chain place chain rest found _ _ ih =>
      have hregion : place.region ≠ .relation := by
        intro hregion
        obtain ⟨_, hnil | ⟨_, _, heq, _⟩⟩ := hready hregion
        · cases hnil
        · cases heq
      cases before with
      | nil => exact absurd hplace hregion
      | cons item before =>
          obtain ⟨rfl, rfl⟩ := List.cons.inj hitems
          exact (ih (fun h => absurd h hregion) hnames rfl hplace).cons _
  | @token place token rest found hopens _ _ ih =>
      cases before with
      | nil => cases hitems
      | cons item before =>
          obtain ⟨rfl, rfl⟩ := List.cons.inj hitems
          have hregion := region_after_ne hopens hready
          exact (ih (fun h => absurd h hregion) hnames rfl hplace).cons _
  | @relation place token name label rest found hopens _ hlabel hfollows _ ih =>
      rw [forall_mem_cons] at hnames
      have hrest : ∀ {before : List Item}, rest = before ++ .chain parts :: after →
          ((Place.mk 0 .relation).afterAll before).region = .relation →
          Listed names before parts := fun heq h => ih (fun _ => ⟨rfl, hfollows⟩) hnames.2 heq h
      cases before with
      | nil => cases hitems
      | cons first before =>
          obtain ⟨rfl, hsecond⟩ := List.cons.inj hitems
          rw [Place.afterAll, foldl_cons, after_of_opens hopens] at hplace
          cases before with
          | nil =>
              cases hsecond
              exact .inl hnames.1
          | cons second before =>
              obtain ⟨rfl, hthird⟩ := List.cons.inj hsecond
              cases hlabel with
              | absent => exact ((hrest hthird hplace).cons _).cons _
              | bare own =>
                  cases before with
                  | nil =>
                      cases hthird
                      exact .inr ⟨own, name.parts, [_], rfl, hnames.1, .inl rfl⟩
                  | cons third before =>
                      obtain ⟨rfl, hfourth⟩ := List.cons.inj hthird
                      exact (((hrest hfourth hplace).cons _).cons _).cons _
              | named own =>
                  cases before with
                  | nil => cases hthird
                  | cons third before =>
                      obtain ⟨rfl, hfourth⟩ := List.cons.inj hthird
                      cases before with
                      | nil =>
                          cases hfourth
                          exact .inr ⟨own, name.parts, [_], rfl, hnames.1, .inr rfl⟩
                      | cons fourth before =>
                          obtain ⟨rfl, hfifth⟩ := List.cons.inj hfourth
                          exact ((((hrest hfifth hplace).cons _).cons _).cons _).cons _

/-! ## Calls, words and order -/

/-- Every `(` follows an allowed function named directly, an expression keyword or an operator. -/
def CallsAllowed (tokens : List Token) : Prop :=
  ∀ before callee after, tokens = before ++ callee :: .symbol ['('] :: after →
    (∃ function ∈ allowedFunctions, callee = .word function ∧
      before.getLast? ≠ some (.symbol ['.'])) ∨
    (∃ word ∈ expressionOpeners, callee = .word word) ∨
    ∃ symbol ∈ operators, callee = .symbol symbol

/-- What one step of `checkCalls` lets pass. -/
theorem checkCalls_cons {previous : Option Token} {first second : Token}
    (h : checkCalls previous (first :: second :: rest) = .ok ()) :
    checkCalls (some first) (second :: rest) = .ok () ∧ (second = .symbol ['('] →
      (∃ function ∈ allowedFunctions, first = .word function ∧ previous ≠ some (.symbol ['.'])) ∨
      (∃ word ∈ expressionOpeners, first = .word word) ∨
      ∃ symbol ∈ operators, first = .symbol symbol) := by
  rw [checkCalls] at h
  by_cases hopen : second.isSymbol "(" = true
  · rw [if_pos hopen] at h
    by_cases hpermitted : permitted (previous.any (Token.isSymbol ".")) first = true
    · rw [if_pos hpermitted] at h
      refine ⟨h, fun _ => ?_⟩
      cases first with
      | word text =>
          rw [permitted] at hpermitted
          by_cases hfunction : text ∈ allowedFunctions
          · rw [if_pos hfunction] at hpermitted
            refine .inl ⟨text, hfunction, rfl, ?_⟩
            rintro rfl
            cases hpermitted
          · rw [if_neg hfunction] at hpermitted
            exact .inr (.inl ⟨text, of_decide_eq_true hpermitted, rfl⟩)
      | symbol symbol => exact .inr (.inr ⟨symbol, of_decide_eq_true hpermitted, rfl⟩)
      | quoted name | literal text | param text => cases hpermitted
    · rw [if_neg hpermitted] at h
      cases h
  · rw [if_neg hopen] at h
    refine ⟨?_, fun heq => absurd (isSymbol_iff.mpr heq) hopen⟩
    split_ifs at h
    exact h

theorem callsAllowed_of_checkCalls {previous : Option Token} {tokens before after : List Token}
    {callee : Token} (h : checkCalls previous tokens = .ok ())
    (heq : tokens = before ++ callee :: .symbol ['('] :: after) :
    (∃ function ∈ allowedFunctions, callee = .word function ∧
      before.getLast?.or previous ≠ some (.symbol ['.'])) ∨
    (∃ word ∈ expressionOpeners, callee = .word word) ∨
    ∃ symbol ∈ operators, callee = .symbol symbol := by
  induction before generalizing previous tokens with
  | nil =>
      subst heq
      exact (checkCalls_cons h).2 rfl
  | cons first before ih =>
      subst heq
      have hlast : (first :: before).getLast?.or previous = before.getLast?.or (some first) := by
        rw [getLast?_cons]
        cases before.getLast? <;> rfl
      rw [hlast]
      cases before with
      | nil | cons second before => exact ih (checkCalls_cons h).1 rfl

/-- An `ORDER BY` with the tokens before it. -/
def OrderAfter (tokens before : List Token) : Prop :=
  ∃ after, tokens = before ++ .word "order".toList :: .word "by".toList :: after

theorem orderAfter_of_hasOrderBy (h : hasOrderBy tokens = true) :
    ∃ before, OrderAfter tokens before := by
  fun_induction hasOrderBy tokens with
  | case1 first second rest ih =>
      rw [or_eq_true, and_eq_true, isWord_iff, isWord_iff] at h
      obtain ⟨rfl, rfl⟩ | h := h
      · exact ⟨[], rest, rfl⟩
      · obtain ⟨before, after, heq⟩ := ih h
        exact ⟨first :: before, after, congrArg (first :: ·) heq⟩
  | case2 => cases h

/-- The parentheses open after some tokens. -/
def nesting (tokens : List Token) : ℕ :=
  tokens.count (.symbol ['(']) - tokens.count (.symbol [')'])

/-! ## The gate -/

/-- What the gate is meant to guarantee of the tokens of an accepted text. -/
structure Confines (allowed relations : List RelationName) (tokens : List Token) : Prop where
  selects : tokens.head? = some (.word "select".toList)
  once : tokens.count (.word "select".toList) = 1
  single : .symbol [';'] ∉ tokens
  balanced : balancedFrom 0 tokens = true
  permitted : ∀ word, .word word ∈ tokens → forbidden word = none
  calls : CallsAllowed tokens
  allowlisted : ∀ name ∈ relations, name ∈ allowed
  listed : ∀ before parts after, items tokens = before ++ .chain parts :: after →
    (Place.start.afterAll before).inFromList →
    Listed (fun parts => ∃ name ∈ relations, name.parts = parts) before parts
  ordered : ∃ before, OrderAfter tokens before ∧ nesting before = 0

/-- No name chain between a join modifier and the `JOIN`, comma, `ON` or clause word that follows
it, unless it repeats a relation that `FROM`, `JOIN` or a comma introduces. -/
def JoinsSettled (tokens : List Token) : Prop :=
  ∀ before parts after, items tokens = before ++ .chain parts :: after →
    Place.start.afterAll before = ⟨0, .modifier⟩ →
    Listed (Introduces .start (items tokens)) before parts

/-- An `ORDER BY` inside parentheses is not the only one. -/
def OrderSettled (tokens : List Token) : Prop :=
  ∀ inner, OrderAfter tokens inner → 0 < nesting inner →
    ∃ before, OrderAfter tokens before ∧ nesting before = 0

/-- No text with a semicolon outside a literal is read. -/
theorem not_semicolon_of_lexes {sql : Str} (h : Lexes sql tokens) :
    .symbol [';'] ∉ tokens := by
  intro hmem
  obtain ⟨c, rest, htext, _, hlex⟩ := h.rereads _ hmem
  cases htext
  have hread := hlex [] fun d hd => by cases hd
  cases hread

theorem gateTokens_eq_ok {derivation : QueryDerivation} {query : GatedQuery}
    (h : gateTokens tokens allowed derivation = .ok query) :
    tokens.head? = some (.word "select".toList) ∧ tokens.count (.word "select".toList) = 1 ∧
      (∀ word, .word word ∈ tokens → forbidden word = none) ∧ checkCalls none tokens = .ok () ∧
      relations tokens allowed = .ok query.relations ∧ hasOrderBy tokens = true ∧
      query.sql = joinTexts tokens ∧ query.digest = digestText (Text.bytes query.sql) ∧
      query.derivation = derivation := by
  unfold gateTokens at h
  rw [check_bind_eq_ok_iff, check_bind_eq_ok_iff,
    check_bind_eq_ok_iff, check_bind_eq_ok_iff,
    check_bind_eq_ok_iff, bind_eq_ok_iff] at h
  obtain ⟨_, hforbidden, honce, hselect, hcalls, relations, hrelations, h⟩ := h
  rw [check_bind_eq_ok_iff] at h
  obtain ⟨horder, h⟩ := h
  cases h
  rw [failIf_eq_ok_iff, Bool.not_eq_false] at hselect horder
  rw [failIf_eq_ok_iff, not_lt] at honce
  rw [refuse_eq_ok_iff] at hforbidden
  have hhead : tokens.head? = some (.word "select".toList) := by
    cases tokens with
    | nil => cases hselect
    | cons token rest => exact congrArg some (isWord_iff.mp hselect)
  refine ⟨hhead, ?_, ?_, hcalls, hrelations, horder, rfl, rfl, rfl⟩
  · have hpos : 0 < tokens.count (.word "select".toList) :=
      count_pos_iff.mpr (mem_of_mem_head? hhead)
    have hcount : tokens.count (.word "select".toList) =
        (tokens.filter (Token.isWord "select")).length := count_eq_length_filter
    omega
  · intro word hword
    exact findSome?_eq_none_iff.mp hforbidden _ hword

theorem gate_eq_ok {sql : Str} {derivation : QueryDerivation} {query : GatedQuery}
    (h : gateAs sql allowed derivation = .ok query) :
    Text.byteLen sql ≤ maxSqlBytes ∧ ∃ tokens, tokenize sql = .ok tokens ∧
      gateTokens tokens allowed derivation = .ok query := by
  rw [gateAs, check_bind_eq_ok_iff, failIf_eq_ok_iff, not_lt,
    bind_eq_ok_iff] at h
  exact h

/-- What an accepted text says about its relations. -/
theorem accepts_of_relations {result : List RelationName}
    (h : relations tokens allowed = .ok result) :
    ∃ introduced, Accepts allowed .start (items tokens) introduced ∧
      ∀ name, name ∈ result ↔ name ∈ introduced := by
  obtain ⟨introduced, haccepts, hresult⟩ := @accepts_of_relationsFrom _ _ .start _ _ _ h
  refine ⟨introduced, haccepts, fun name => ?_⟩
  rw [hresult, mem_normalize, append_nil, mem_reverse]

/-- The gate confines an accepted text exactly when nothing is hidden behind a join modifier
and not every `ORDER BY` stands inside parentheses. -/
theorem gate_confines_iff (sql : Str) (allowed : List RelationName) (query : GatedQuery)
    (h : gate sql allowed = .ok query) :
    ∃ tokens, tokenize sql = .ok tokens ∧
      (Confines allowed query.relations tokens ↔ JoinsSettled tokens ∧ OrderSettled tokens) := by
  obtain ⟨_, tokens, htokens, hgate⟩ := gate_eq_ok h
  obtain ⟨hselects, honce, hpermitted, hcalls, hrelations, horder, _⟩ := gateTokens_eq_ok hgate
  obtain ⟨introduced, haccepts, hfound⟩ := accepts_of_relations hrelations
  have hnames : ∀ parts, (∃ name ∈ query.relations, name.parts = parts) ↔
      Introduces .start (items tokens) parts := by
    intro parts
    rw [introduces_iff haccepts]
    exact exists_congr fun name => and_congr_left' (hfound name)
  have hnames : (fun parts => ∃ name ∈ query.relations, name.parts = parts) =
      Introduces .start (items tokens) := funext fun parts => propext (hnames parts)
  refine ⟨tokens, htokens, fun hconfines => ⟨?_, ?_⟩, fun hsettled => ?_⟩
  · intro before parts after hitems hplace
    rw [← hnames]
    apply hconfines.listed before parts after hitems
    rw [hplace]
    exact ⟨rfl, .inr rfl⟩
  · exact fun _ _ _ => hconfines.ordered
  · obtain ⟨hjoins, horders⟩ := hsettled
    refine ⟨hselects, honce, not_semicolon_of_lexes (tokenize_eq_ok_iff.mp htokens).2.1, ?_,
      hpermitted, ?_, ?_, ?_, ?_⟩
    · rw [balancedFrom_eq]
      exact balanced_of_accepts haccepts
    · intro before callee after heq
      have hcall := callsAllowed_of_checkCalls hcalls heq
      rwa [or_none] at hcall
    · exact fun name hname => allowed_of_accepts haccepts name ((hfound name).mp hname)
    · intro before parts after hitems hplace
      obtain ⟨hdepth, hrelation | hmodifier⟩ := hplace
      · apply listed_of_accepts haccepts (fun h => by cases h) _ hitems hrelation
        exact fun name hname => ⟨name, (hfound name).mpr hname, rfl⟩
      · rw [hnames]
        exact hjoins before parts after hitems (by rw [← hdepth, ← hmodifier])
    · obtain ⟨before, hbefore⟩ := orderAfter_of_hasOrderBy horder
      by_cases hzero : nesting before = 0
      · exact ⟨before, hbefore, hzero⟩
      · exact horders before hbefore (Nat.pos_of_ne_zero hzero)

/-- The relation `main.orders`. -/
def ordersRelation : RelationName := ⟨"main".toList, "orders".toList, by decide⟩

/-- A text with one relation, in order. -/
def plainText : Str := "SELECT id FROM main.orders ORDER BY id".toList

theorem gate_confines_iff_plain :
    ∃ query tokens, gate plainText [ordersRelation] = .ok query ∧
      (Confines [ordersRelation] query.relations tokens ↔
        JoinsSettled tokens ∧ OrderSettled tokens) := by
  have haccepted : (gate plainText [ordersRelation]).toOption.isSome = true := by decide +kernel
  cases hgate : gate plainText [ordersRelation] with
  | error rejection =>
      rw [hgate] at haccepted
      cases haccepted
  | ok query =>
      obtain ⟨tokens, _, hiff⟩ := gate_confines_iff plainText [ordersRelation] query hgate
      exact ⟨query, tokens, rfl, hiff⟩

/-- A text that reads a second relation behind a join modifier. -/
def applyText : Str := "SELECT id FROM main.orders CROSS APPLY secret.t ORDER BY id".toList

theorem not_gate_confines :
    ¬ ∀ sql allowed query, gate sql allowed = .ok query →
      ∃ tokens, tokenize sql = .ok tokens ∧ Confines allowed query.relations tokens := by
  intro hall
  have haccepted : (gate applyText [ordersRelation]).toOption.isSome = true := by decide +kernel
  cases hgate : gate applyText [ordersRelation] with
  | error rejection =>
      rw [hgate] at haccepted
      cases haccepted
  | ok query =>
      obtain ⟨tokens, htokens, hconfines⟩ := hall _ _ _ hgate
      have hread : (tokenize applyText).map items = .ok
          ([.token (.word "select".toList), .chain ["id".toList], .token (.word "from".toList),
            .chain ordersRelation.parts, .token (.word "cross".toList), .chain ["apply".toList]] ++
            .chain ["secret".toList, "t".toList] ::
            [.token (.word "order".toList), .token (.word "by".toList), .chain ["id".toList]]) := by
        decide +kernel
      rw [htokens] at hread
      have hplace : (Place.start.afterAll
          [.token (.word "select".toList), .chain ["id".toList], .token (.word "from".toList),
            .chain ordersRelation.parts, .token (.word "cross".toList),
            .chain ["apply".toList]]).inFromList := by
        unfold Place.inFromList
        decide
      obtain ⟨name, hname, hparts⟩ | ⟨label, _, _, hparts, _⟩ :=
        hconfines.listed _ _ _ (Except.ok.inj hread) hplace
      · have horders := mem_singleton.mp (hconfines.allowlisted name hname)
        subst horders
        exact absurd hparts (by decide)
      · cases hparts

end Bran.Database
