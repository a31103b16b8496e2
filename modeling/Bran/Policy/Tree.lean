import Bran.Policy.Yaml

/-!
# The tree of a policy text

What the builders do with the tokens of a text, as a derivation: the tree holds everything that the
tokens hold, once, and each of its mappings has each key once.
-/

namespace Bran.Policy

open Text Validation List
open Except (ok.inj)

/-- A key with its value, a key above other lines, or an item. -/
inductive Written
  | pair (key text : Str)
  | key (key : Str)
  | item (text : Str)

mutual

/-- What is written of a value below its key. -/
def YamlValue.written (key : Str) : YamlValue → List Written
  | .scalar text => [.pair key text]
  | .seq items => .key key :: items.map .item
  | .map entries => .key key :: nodeWritten entries

/-- What is written of a mapping. -/
def nodeWritten : List (Str × YamlValue) → List Written
  | [] => []
  | (key, value) :: rest => value.written key ++ nodeWritten rest

end

def Token.written : Token → List Written
  | .mappingKey _ _ key value => value.written key
  | .sequenceEntry _ _ value => [.item value]
  | .nestedKey _ _ key => [.key key]

/-- Every mapping of a value has each key once. -/
inductive Ordered : YamlValue → Prop
  | scalar (text : Str) : Ordered (.scalar text)
  | seq (items : List Str) : Ordered (.seq items)
  | map (entries : Node) (hkeys : (entries.map Prod.fst).Nodup)
      (hvalues : ∀ entry ∈ entries, Ordered entry.2) : Ordered (.map entries)

/-- What the builders do with tokens: `Eats indent tokens map map' rest`. -/
inductive Eats : ℕ → List Token → Node → Node → List Token → Prop
  | stop (indent : ℕ) (tokens : List Token) (map : Node) : Eats indent tokens map map tokens
  | inline {indent line : ℕ} {key : Str} {value : YamlValue} {tokens rest : List Token}
      {map map' : Node} (hnew : key ∉ map.map Prod.fst)
      (hrest : Eats indent tokens (OrdMap.insertEntry key value map) map' rest) :
      Eats indent (.mappingKey indent line key value :: tokens) map map' rest
  | bare {indent line : ℕ} {key : Str} {tokens rest : List Token} {map map' : Node}
      (hnew : key ∉ map.map Prod.fst)
      (hrest : Eats indent tokens (OrdMap.insertEntry key (.map []) map) map' rest) :
      Eats indent (.nestedKey indent line key :: tokens) map map' rest
  | sequence {indent line child : ℕ} {key : Str} {tokens rest : List Token} {map map' : Node}
      (hnew : key ∉ map.map Prod.fst)
      (hrest : Eats indent (eatSequence child tokens).2
        (OrdMap.insertEntry key (.seq (eatSequence child tokens).1) map) map' rest) :
      Eats indent (.nestedKey indent line key :: tokens) map map' rest
  | nested {indent line child : ℕ} {key : Str} {tokens middle rest : List Token}
      {map inner map' : Node} (hnew : key ∉ map.map Prod.fst) (hinner : Eats child tokens [] inner middle)
      (hrest : Eats indent middle (OrdMap.insertEntry key (.map inner) map) map' rest) :
      Eats indent (.nestedKey indent line key :: tokens) map map' rest

variable {map : Node} {tokens : List Token}

theorem findEntry_isSome_iff {key : Str} :
    (OrdMap.findEntry key map).isSome = true ↔ key ∈ map.map Prod.fst := by
  induction map with
  | nil => simp [OrdMap.findEntry]
  | cons entry rest ih =>
      obtain ⟨other, value⟩ := entry
      rw [OrdMap.findEntry, map_cons, mem_cons]
      split_ifs with h
      · simp [h]
      · rw [ih]
        exact ⟨.inr, fun hmem => hmem.resolve_left (fun heq => h heq.symm)⟩

theorem eats_of_eatMapping {fuel indent : ℕ} {rest : List Token} {map' : Node}
    (h : eatMapping fuel indent tokens map = .ok (map', rest)) :
    Eats indent tokens map map' rest := by
  induction fuel generalizing indent tokens map map' rest with
  | zero =>
      obtain ⟨rfl, rfl⟩ := Prod.mk.inj (ok.inj h)
      exact .stop _ _ _
  | succ fuel ih =>
      cases tokens with
      | nil =>
          obtain ⟨rfl, rfl⟩ := Prod.mk.inj (ok.inj h)
          exact .stop _ _ _
      | cons token tokens =>
          cases token with
          | sequenceEntry itemIndent line value =>
              obtain ⟨rfl, rfl⟩ := Prod.mk.inj (ok.inj h)
              exact .stop _ _ _
          | mappingKey keyIndent line key value =>
              rw [eatMapping] at h
              split_ifs at h with hindent
              · obtain ⟨rfl, rfl⟩ := Prod.mk.inj (ok.inj h)
                exact .stop _ _ _
              · obtain rfl := not_not.mp hindent
                rw [insertNew, bind_assoc, check_bind_eq_ok_iff, failIf_eq_ok_iff,
                  findEntry_isSome_iff, ok_bind] at h
                exact .inline h.1 (ih h.2)
          | nestedKey keyIndent line key =>
              rw [eatMapping.eq_def] at h
              dsimp only at h
              split_ifs at h with hindent
              · obtain ⟨rfl, rfl⟩ := Prod.mk.inj (ok.inj h)
                exact .stop _ _ _
              · obtain rfl := not_not.mp hindent
                rw [check_bind_eq_ok_iff, failIf_eq_ok_iff, findEntry_isSome_iff] at h
                obtain ⟨hnew, h⟩ := h
                cases tokens with
                | nil =>
                    obtain ⟨rfl, rfl⟩ := Prod.mk.inj (ok.inj h)
                    exact .bare hnew (.stop _ _ _)
                | cons child after =>
                    dsimp only at h
                    split_ifs at h with hchild
                    · exact .bare hnew (ih h)
                    · cases child with
                      | sequenceEntry itemIndent line' value =>
                          exact .sequence hnew (ih h)
                      | mappingKey keyIndent' line' key' value | nestedKey keyIndent' line' key' =>
                          obtain ⟨eaten, heaten, h⟩ := bind_eq_ok_iff.mp h
                          exact .nested hnew (ih heaten) (ih h)

theorem eats_of_buildParsedPolicy {fuel : ℕ} {parsed : Node}
    (h : buildParsedPolicy fuel tokens map = .ok parsed) : Eats 0 tokens map parsed [] := by
  induction fuel generalizing tokens map with
  | zero =>
      cases tokens with
      | nil =>
          obtain rfl := ok.inj h
          exact .stop _ _ _
      | cons token tokens => rcases token with ⟨_ | _, _, _, _⟩ | _ | ⟨_ | _, _, _⟩ <;> cases h
  | succ fuel ih =>
      cases tokens with
      | nil =>
          obtain rfl := ok.inj h
          exact .stop _ _ _
      | cons token tokens =>
          rcases token with ⟨_ | _, line, key, value⟩ | _ | ⟨_ | _, line, key⟩
          · rw [buildParsedPolicy, insertNew, bind_assoc, check_bind_eq_ok_iff, failIf_eq_ok_iff,
              findEntry_isSome_iff, ok_bind] at h
            exact .inline h.1 (ih h.2)
          · cases h
          · cases h
          · rw [buildParsedPolicy, check_bind_eq_ok_iff, failIf_eq_ok_iff, findEntry_isSome_iff] at h
            obtain ⟨hnew, h⟩ := h
            obtain ⟨eaten, heaten, h⟩ := bind_eq_ok_iff.mp h
            cases tokens with
            | nil =>
                obtain rfl := ok.inj heaten
                exact .bare hnew (ih h)
            | cons child after =>
                cases child with
                | sequenceEntry itemIndent line' value =>
                    obtain rfl := ok.inj heaten
                    exact .sequence hnew (ih h)
                | mappingKey keyIndent' line' key' value | nestedKey keyIndent' line' key' =>
                    obtain ⟨inner, hinner, heaten⟩ := bind_eq_ok_iff.mp heaten
                    obtain rfl := ok.inj heaten
                    exact .nested hnew (eats_of_eatMapping hinner) (ih h)
          · cases h

theorem insertEntry_perm {key : Str} {value : YamlValue} {map : Node}
    (hnew : key ∉ map.map Prod.fst) :
    (OrdMap.insertEntry key value map).Perm ((key, value) :: map) := by
  induction map with
  | nil => exact List.Perm.refl _
  | cons entry rest ih =>
      obtain ⟨other, text⟩ := entry
      rw [map_cons, mem_cons, not_or] at hnew
      rw [OrdMap.insertEntry, if_neg hnew.1]
      split_ifs
      · exact List.Perm.refl _
      · exact ((ih hnew.2).cons _).trans (List.Perm.swap _ _ _)

theorem nodeWritten_eq (map : Node) :
    nodeWritten map = map.flatMap fun entry => entry.2.written entry.1 := by
  induction map with
  | nil => rw [nodeWritten, flatMap_nil]
  | cons entry rest ih => rw [nodeWritten, flatMap_cons, ih]

theorem nodeWritten_insertEntry {key : Str} {value : YamlValue} (hnew : key ∉ map.map Prod.fst) :
    (nodeWritten (OrdMap.insertEntry key value map)).Perm (value.written key ++ nodeWritten map) := by
  rw [nodeWritten_eq, nodeWritten_eq, ← flatMap_cons (f := fun entry : Str × YamlValue =>
    entry.2.written entry.1) (x := (key, value))]
  exact (insertEntry_perm hnew).flatMap_right _

theorem written_eatSequence (indent : ℕ) (tokens : List Token) :
    tokens.flatMap Token.written =
      (eatSequence indent tokens).1.map .item ++ (eatSequence indent tokens).2.flatMap Token.written := by
  induction tokens with
  | nil => rfl
  | cons token tokens ih =>
      cases token with
      | mappingKey keyIndent line key value => rfl
      | nestedKey keyIndent line key => rfl
      | sequenceEntry itemIndent line value =>
          rw [eatSequence]
          split_ifs
          · rw [flatMap_cons, ih]
            rfl
          · rfl

/-- What was written of an entry moves into the mapping. -/
theorem written_insertEntry {key : Str} {value : YamlValue} {front rest : List Written}
    (hnew : key ∉ map.map Prod.fst) (hfront : front.Perm (value.written key ++ rest)) :
    (front ++ nodeWritten map).Perm (rest ++ nodeWritten (OrdMap.insertEntry key value map)) := by
  have hmoved : (front ++ nodeWritten map).Perm (rest ++ (value.written key ++ nodeWritten map)) := by
    rw [← append_assoc]
    exact (hfront.trans perm_append_comm).append_right _
  exact hmoved.trans ((nodeWritten_insertEntry hnew).symm.append_left _)

/-- The builders neither drop nor repeat what is written. -/
theorem Eats.written {indent : ℕ} {rest : List Token} {map' : Node}
    (h : Eats indent tokens map map' rest) :
    (tokens.flatMap Token.written ++ nodeWritten map).Perm
      (rest.flatMap Token.written ++ nodeWritten map') := by
  induction h with
  | stop => exact List.Perm.refl _
  | inline hnew _ ih => exact (written_insertEntry hnew (List.Perm.refl _)).trans ih
  | bare hnew _ ih =>
      refine (written_insertEntry hnew ?_).trans ih
      rw [YamlValue.written, nodeWritten]
      exact List.Perm.refl _
  | @sequence indent line child key tokens rest map map' hnew _ ih =>
      refine (written_insertEntry hnew ?_).trans ih
      rw [flatMap_cons, written_eatSequence child tokens, YamlValue.written]
      exact List.Perm.refl _
  | nested hnew _ _ ihInner ih =>
      refine (written_insertEntry hnew ?_).trans ih
      rw [nodeWritten, append_nil] at ihInner
      rw [flatMap_cons, YamlValue.written]
      exact (ihInner.trans perm_append_comm).cons _

/-- A token whose value has each key once. -/
def Token.Ordered : Token → Prop
  | .mappingKey _ _ _ value => Policy.Ordered value
  | _ => True

theorem ordered_insertEntry {key : Str} {value : YamlValue} (hmap : Ordered (.map map))
    (hnew : key ∉ map.map Prod.fst) (hvalue : Ordered value) :
    Ordered (.map (OrdMap.insertEntry key value map)) := by
  cases hmap with
  | map _ hkeys hvalues =>
      have hperm := @insertEntry_perm key value map hnew
      refine .map _ ((hperm.map Prod.fst).nodup_iff.mpr (nodup_cons.mpr ⟨hnew, hkeys⟩)) ?_
      intro entry hentry
      rcases mem_cons.mp (hperm.mem_iff.mp hentry) with rfl | hentry
      · exact hvalue
      · exact hvalues entry hentry

theorem mem_eatSequence {indent : ℕ} {token : Token} (h : token ∈ (eatSequence indent tokens).2) :
    token ∈ tokens := by
  induction tokens with
  | nil => exact h
  | cons first tokens ih =>
      cases first with
      | mappingKey keyIndent line key value => exact h
      | nestedKey keyIndent line key => exact h
      | sequenceEntry itemIndent line value =>
          rw [eatSequence] at h
          split_ifs at h
          · exact mem_cons_of_mem _ (ih h)
          · exact h

theorem Eats.ordered {indent : ℕ} {rest : List Token} {map' : Node}
    (h : Eats indent tokens map map' rest) (htokens : ∀ token ∈ tokens, token.Ordered)
    (hmap : Policy.Ordered (.map map)) :
    (∀ token ∈ rest, token.Ordered) ∧ Policy.Ordered (.map map') := by
  have hempty : Policy.Ordered (.map []) := .map [] nodup_nil fun _ hentry => nomatch hentry
  induction h with
  | stop => exact ⟨htokens, hmap⟩
  | inline hnew _ ih =>
      obtain ⟨hvalue, hrest⟩ := forall_mem_cons.mp htokens
      exact ih hrest (ordered_insertEntry hmap hnew hvalue)
  | bare hnew _ ih =>
      exact ih (forall_mem_cons.mp htokens).2 (ordered_insertEntry hmap hnew hempty)
  | sequence hnew _ ih =>
      have hrest := (forall_mem_cons.mp htokens).2
      exact ih (fun token htoken => hrest token (mem_eatSequence htoken))
        (ordered_insertEntry hmap hnew (.seq _))
  | nested hnew _ _ ihInner ih =>
      obtain ⟨hmiddle, hinner⟩ := ihInner (forall_mem_cons.mp htokens).2 hempty
      exact ih hmiddle (ordered_insertEntry hmap hnew hinner)

theorem ordered_tokenize {raw : Str} (h : tokenize raw = .ok tokens) :
    ∀ token ∈ tokens, token.Ordered := by
  have hinline : ∀ text line value, parseInlineValue text line = .ok value → Ordered value := by
    intro text line value hvalue
    unfold parseInlineValue at hvalue
    dsimp only at hvalue
    split_ifs at hvalue
    · obtain ⟨items, _, hvalue⟩ := bind_eq_ok_iff.mp hvalue
      obtain rfl := ok.inj hvalue
      exact .seq items
    · obtain ⟨text, _, hvalue⟩ := bind_eq_ok_iff.mp hvalue
      obtain rfl := ok.inj hvalue
      exact .scalar text
  have htoken : ∀ indent line text token, tokenizeTrimmed indent line text = .ok token →
      token.Ordered := by
    intro indent line text token htoken
    unfold tokenizeTrimmed at htoken
    split at htoken
    · obtain ⟨value, _, htoken⟩ := bind_eq_ok_iff.mp htoken
      obtain rfl := ok.inj htoken
      trivial
    · split at htoken
      · cases htoken
      · split_ifs at htoken
        · obtain rfl := ok.inj htoken
          trivial
        · obtain ⟨value, hvalue, htoken⟩ := bind_eq_ok_iff.mp htoken
          obtain rfl := ok.inj htoken
          exact hinline _ _ _ hvalue
  have hlines : ∀ (all : List Str) (number : ℕ) (tokens : List Token),
      tokenizeLines number all = .ok tokens → ∀ token ∈ tokens, token.Ordered := by
    intro all
    induction all with
    | nil =>
        intro number tokens htokens
        obtain rfl := ok.inj htokens
        exact fun _ hmem => nomatch hmem
    | cons line rest ih =>
        intro number tokens htokens
        rw [tokenizeLines] at htokens
        split_ifs at htokens
        · exact ih _ _ htokens
        · obtain ⟨token, hfirst, htokens⟩ := bind_eq_ok_iff.mp htokens
          obtain ⟨others, hothers, htokens⟩ := bind_eq_ok_iff.mp htokens
          obtain rfl := ok.inj htokens
          exact forall_mem_cons.mpr ⟨htoken _ _ _ _ hfirst, ih _ _ hothers⟩
  exact hlines _ _ _ h

/-- The tree of a text holds what each token holds, and each key once. -/
theorem parsePolicyYaml_spec {raw : Str} {parsed : Node} (h : parsePolicyYaml raw = .ok parsed) :
    ∃ tokens, tokenize raw = .ok tokens ∧
      (tokens.flatMap Token.written).Perm (nodeWritten parsed) ∧ Ordered (.map parsed) := by
  obtain ⟨tokens, htokens, h⟩ := bind_eq_ok_iff.mp h
  have heats := eats_of_buildParsedPolicy h
  have hwritten := heats.written
  rw [nodeWritten, append_nil] at hwritten
  exact ⟨tokens, htokens, hwritten, (heats.ordered (ordered_tokenize htokens)
    (.map [] nodup_nil fun _ hentry => nomatch hentry)).2⟩

end Bran.Policy
