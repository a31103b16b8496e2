import Bran.Scip.Messages

/-!
# Decoding is exact

An index is accepted exactly when what its bytes encode is valid, and the views, which parse the
bytes again and pass over what they cannot read, then show all of it in order: what they read has
been checked before.
-/

namespace Bran.Scip

open Protobuf Reading Validation List
open Except (ok.inj)

/-! ## Messages that encode a value -/

theorem document_encoded {value : Document} {bytes : List UInt8}
    (h : EncodesDocument value bytes) : document bytes = .ok ⟨value.path, value.text, bytes⟩ := by
  obtain ⟨all, hall, ⟨paths, hpaths, hpath⟩, _, _, texts, htexts, htext⟩ := h
  rw [document, eachField_encoded hall, foldlM_document hpaths htexts, hpath, htext]

theorem relationship_encoded {value : Relationship} {bytes : List UInt8}
    (h : EncodesRelationship value bytes) :
    relationship bytes = .ok (value.symbol, value.isImplementation) := by
  obtain ⟨all, flag, hall, ⟨targets, htargets, htarget⟩, ⟨flags, hflags, hflag⟩, hvalue⟩ := h
  rw [relationship, eachField_encoded hall]
  exact (foldlM_relationship htargets hflags [] 0).trans (by rw [htarget, hflag, hvalue])

theorem information_encoded {value : SymbolInformation} {bytes : List UInt8}
    (h : EncodesInformation value bytes) :
    information bytes =
      if value.symbol = [] then .error .decode else .ok ⟨value.symbol, value.kind, bytes⟩ := by
  obtain ⟨all, hall, ⟨symbols, hsymbols, hsymbol⟩, hrelationships, kinds, hkinds, hkind⟩ := h
  have hparsed : ∀ found ∈ valuesOf 4 all, ∃ bytes result,
      found = .bytes bytes ∧ relationship bytes = .ok result := by
    intro found hfound
    obtain ⟨payload, rfl, item, _, hitem⟩ := hrelationships.exists_item hfound
    exact ⟨payload, _, rfl, relationship_encoded hitem⟩
  rw [information, eachField_encoded hall, foldlM_information hsymbols hparsed hkinds, ok_bind]
  dsimp only
  rw [hsymbol, hkind]
  rfl

section Ranges

variable {all : List Field} {symbols : List Str} {numbers : List ℕ}

/-- Without a typed range the deprecated coordinates are all there is. -/
theorem foldlM_deprecated
    (hsymbols : valuesOf 2 all = symbols.map fun text => .bytes (Text.bytes text))
    (hroles : valuesOf 3 all = numbers.map .varint) {coordinates : List ℕ}
    (hfour : coordinates.length ≤ 4) (hrange : HasNumbers 1 coordinates all)
    (height : valuesOf 8 all = []) (hnine : valuesOf 9 all = []) :
    all.foldlM OccurrenceState.field ⟨[], 0, [], none⟩ =
      .ok ⟨symbols.getLastD [], numbers.getLastD 0, coordinates, none⟩ := by
  obtain ⟨parts, hparts, rfl⟩ := hrange
  have hnot : ∀ {number : ℕ}, valuesOf number all = [] → ∀ field ∈ all, field.1 ≠ number := by
    intro number hnone field hfield heq
    have hmem : field.2 ∈ valuesOf number all := mem_valuesOf.mpr (heq ▸ hfield)
    rw [hnone] at hmem
    cases hmem
  have hnone : ∀ field ∈ all, (typedRange field).isSome = false := by
    intro field hfield
    obtain ⟨number, value⟩ := field
    simp [hnot height _ hfield, hnot hnine _ hfield]
  have huntyped : (all.any fun field => (typedRange field).isSome) = false := by
    rw [any_eq_false]
    intro field hfield
    simp [hnone field hfield]
  have hfold := foldlM_occurrence ⟨0, 0, 0, 0⟩ hparts hsymbols hroles
    (fun field hfield found hfound => by
      have hsome := hnone field hfield
      rw [hfound] at hsome
      exact (nomatch hsome))
    ⟨[], 0, [], none⟩ (by rw [length_nil, Nat.zero_add]; exact hfour)
  rw [huntyped] at hfold
  exact hfold

/-- A typed range stands before the deprecated coordinates. -/
theorem foldlM_typed
    (hsymbols : valuesOf 2 all = symbols.map fun text => .bytes (Text.bytes text))
    (hroles : valuesOf 3 all = numbers.map .varint) (hdeprecated : HasDeprecated all)
    {typed : Coordinates}
    (htyped : ∀ field ∈ all, ∀ found, typedRange field = some found → found = .ok typed)
    (hsome : ∃ field ∈ all, field.1 = 8 ∨ field.1 = 9) :
    ∃ coordinates, all.foldlM OccurrenceState.field ⟨[], 0, [], none⟩ =
      .ok ⟨symbols.getLastD [], numbers.getLastD 0, coordinates, some typed⟩ := by
  obtain ⟨coordinates, hfour, parts, hparts, rfl⟩ := hdeprecated
  have hany : (all.any fun field => (typedRange field).isSome) = true := by
    obtain ⟨⟨number, value⟩, hfield, hnumber⟩ := hsome
    rw [any_eq_true]
    refine ⟨_, hfield, ?_⟩
    simpa using hnumber
  have hfold := foldlM_occurrence typed hparts hsymbols hroles htyped ⟨[], 0, [], none⟩
    (by rw [length_nil, Nat.zero_add]; exact hfour)
  rw [hany] at hfold
  exact ⟨_, hfold⟩

/-- The coordinates of the range that is encoded are those that the occurrence has. -/
theorem exists_state_of_hasRange {range : OccurrenceRange} (h : HasRange range all)
    (hsymbols : valuesOf 2 all = symbols.map fun text => .bytes (Text.bytes text))
    (hroles : valuesOf 3 all = numbers.map .varint) :
    ∃ coordinates typed, all.foldlM OccurrenceState.field ⟨[], 0, [], none⟩ =
        .ok ⟨symbols.getLastD [], numbers.getLastD 0, coordinates, typed⟩ ∧
      OccurrenceState.coordinates ⟨symbols.getLastD [], numbers.getLastD 0, coordinates, typed⟩ =
        .ok range.coordinates := by
  cases range with
  | three line start stop | four startLine start endLine stop =>
      obtain ⟨hrange, height, hnine⟩ := h
      exact ⟨_, _, foldlM_deprecated hsymbols hroles (by simp) hrange height hnine, rfl⟩
  | singleLine line start stop =>
      obtain ⟨hdeprecated, hmessages, hnine⟩ := h
      have htyped : ∀ field ∈ all, ∀ found, typedRange field = some found →
          found = .ok ⟨line, start, line, stop⟩ := by
        intro field hfield found hfound
        rw [typedRange.eq_def] at hfound
        split at hfound
        · obtain rfl := Option.some.inj hfound
          obtain ⟨bytes, rfl, values, hvalues, hencodes⟩ :=
            hmessages.exists_item (mem_valuesOf.mpr hfield)
          obtain rfl := mem_singleton.mp hvalues
          rw [bytesOf, ok_bind]
          have hread : messageVarints bytes [1, 2, 3] = .ok [line, start, stop] :=
            messageVarints_encoded hencodes
          rw [hread]
          rfl
        · have hmem := mem_valuesOf.mpr hfield
          rw [hnine] at hmem
          cases hmem
        · cases hfound
      obtain ⟨bytes, hbytes, _⟩ := hmessages.exists_field (mem_singleton_self _)
      obtain ⟨coordinates, hfold⟩ :=
        foldlM_typed hsymbols hroles hdeprecated htyped ⟨_, hbytes, .inl rfl⟩
      exact ⟨coordinates, _, hfold, rfl⟩
  | multiLine startLine start endLine stop =>
      obtain ⟨hdeprecated, height, hmessages⟩ := h
      have htyped : ∀ field ∈ all, ∀ found, typedRange field = some found →
          found = .ok ⟨startLine, start, endLine, stop⟩ := by
        intro field hfield found hfound
        rw [typedRange.eq_def] at hfound
        split at hfound
        · have hmem := mem_valuesOf.mpr hfield
          rw [height] at hmem
          cases hmem
        · obtain rfl := Option.some.inj hfound
          obtain ⟨bytes, rfl, values, hvalues, hencodes⟩ :=
            hmessages.exists_item (mem_valuesOf.mpr hfield)
          obtain rfl := mem_singleton.mp hvalues
          rw [bytesOf, ok_bind]
          have hread : messageVarints bytes [1, 2, 3, 4] = .ok [startLine, start, endLine, stop] :=
            messageVarints_encoded hencodes
          rw [hread]
          rfl
        · cases hfound
      obtain ⟨bytes, hbytes, _⟩ := hmessages.exists_field (mem_singleton_self _)
      obtain ⟨coordinates, hfold⟩ :=
        foldlM_typed hsymbols hroles hdeprecated htyped ⟨_, hbytes, .inr rfl⟩
      exact ⟨coordinates, _, hfold, rfl⟩

end Ranges

theorem occurrence_encoded {value : Occurrence} {bytes : List UInt8}
    (h : EncodesOccurrence value bytes) :
    occurrence bytes = if value.Valid then .ok value.view else .error .decode := by
  obtain ⟨all, hall, hrange, ⟨symbols, hsymbols, hsymbol⟩, numbers, hnumbers, hroles⟩ := h
  obtain ⟨coordinates, typed, hfold, hcoordinates⟩ :=
    exists_state_of_hasRange hrange hsymbols hnumbers
  rw [occurrence, eachField_encoded hall, hfold, ok_bind, hcoordinates, ok_bind]
  by_cases hvalid : value.Valid
  · have hcoordinates : value.range.coordinates.Valid := hvalid
    have hline : ∀ coordinate, coordinate ≤ maxCoordinate → line coordinate = .ok coordinate := by
      intro coordinate hsmall
      rw [line, if_pos (lt_of_le_of_lt hsmall (by decide))]
    rw [if_pos hvalid, if_neg (not_not.mpr hcoordinates), hline _ hcoordinates.1.1,
      hline _ hcoordinates.1.2.2.1, ok_bind, ok_bind]
    dsimp only
    rw [hsymbol, hroles]
    rfl
  · have hcoordinates : ¬ value.range.coordinates.Valid := hvalid
    rw [if_neg hvalid, if_pos hcoordinates]

/-! ## What the decoder accepts -/

section Accepts

/-- Fields of two repeated messages are accepted if every one of them is. -/
theorem foldlM_check_repeated {α β : Type} {check : Unit → Field → Except Fault Unit}
    {all : List Field} {first second : ℕ} {encodes : α → List UInt8 → Prop}
    {encodes' : β → List UInt8 → Prop} {items : List α} {others : List β} {P : α → Prop}
    {Q : β → Prop} (hitems : HasMessages first encodes items all)
    (hothers : HasMessages second encodes' others all)
    (hfirst : ∀ item bytes, encodes item bytes →
      (check () (first, .bytes bytes) = .ok () ↔ P item))
    (hsecond : ∀ other bytes, encodes' other bytes →
      (check () (second, .bytes bytes) = .ok () ↔ Q other))
    (hrest : ∀ field : Field, field.1 ≠ first → field.1 ≠ second → check () field = .ok ()) :
    all.foldlM check () = .ok () ↔ (∀ item ∈ items, P item) ∧ ∀ other ∈ others, Q other := by
  rw [foldlM_check_eq_ok_iff,
    ← hitems.forall_iff (P := fun field => check () field = .ok ()) hfirst,
    ← hothers.forall_iff (P := fun field => check () field = .ok ()) hsecond]
  constructor
  · exact fun h => ⟨fun field hfield _ => h field hfield, fun field hfield _ => h field hfield⟩
  · intro h field hfield
    by_cases hnumber : field.1 = first
    · exact h.1 field hfield hnumber
    by_cases hnumber' : field.1 = second
    · exact h.2 field hfield hnumber'
    exact hrest field hnumber hnumber'

theorem information_isOk_iff {value : SymbolInformation} {bytes : List UInt8}
    (h : EncodesInformation value bytes) :
    (∃ found, information bytes = .ok found) ↔ value.Valid := by
  rw [information_encoded h]
  constructor
  · intro hok hempty
    rw [if_pos hempty] at hok
    obtain ⟨_, ⟨⟩⟩ := hok
  · exact fun hvalid => ⟨_, if_neg hvalid⟩

/-- A message that is parsed for the check only. -/
theorem parse_eq_ok_iff {α : Type} {parse : List UInt8 → Except Fault α} {bytes : List UInt8} :
    (do let _ ← parse (← bytesOf (.bytes bytes)); return () : Except Fault Unit) = .ok () ↔
      ∃ found, parse bytes = .ok found := by
  rw [bytesOf, ok_bind, bind_eq_ok_iff]
  exact exists_congr fun _ => and_iff_left rfl

theorem checkDocumentField_occurrence {value : Occurrence} {bytes : List UInt8}
    (h : EncodesOccurrence value bytes) :
    checkDocumentField () (2, .bytes bytes) = .ok () ↔ value.Valid := by
  rw [checkDocumentField, parse_eq_ok_iff, occurrence_encoded h]
  constructor
  · intro hok
    by_contra hinvalid
    rw [if_neg hinvalid] at hok
    obtain ⟨_, ⟨⟩⟩ := hok
  · exact fun hvalid => ⟨_, if_pos hvalid⟩

theorem checkDocumentField_information {value : SymbolInformation} {bytes : List UInt8}
    (h : EncodesInformation value bytes) :
    checkDocumentField () (3, .bytes bytes) = .ok () ↔ value.Valid := by
  rw [checkDocumentField, parse_eq_ok_iff, information_isOk_iff h]

theorem checkIndexField_information {value : SymbolInformation} {bytes : List UInt8}
    (h : EncodesInformation value bytes) :
    checkIndexField () (3, .bytes bytes) = .ok () ↔ value.Valid := by
  rw [checkIndexField, parse_eq_ok_iff, information_isOk_iff h]

theorem checkDocumentField_of_ne {field : Field} (htwo : field.1 ≠ 2) (hthree : field.1 ≠ 3) :
    checkDocumentField () field = .ok () := by
  rw [checkDocumentField.eq_def]
  split <;> simp_all

theorem checkIndexField_of_ne {field : Field} (htwo : field.1 ≠ 2) (hthree : field.1 ≠ 3) :
    checkIndexField () field = .ok () := by
  rw [checkIndexField.eq_def]
  split <;> simp_all

theorem checkIndexField_document {value : Document} {bytes : List UInt8}
    (h : EncodesDocument value bytes) :
    checkIndexField () (2, .bytes bytes) = .ok () ↔ value.Valid := by
  rw [checkIndexField, bytesOf, ok_bind, document_encoded h, ok_bind]
  obtain ⟨all, hall, _, hoccurrences, hsymbols, _⟩ := h
  rw [eachField_encoded hall, foldlM_check_repeated hoccurrences hsymbols
    (fun _ _ => checkDocumentField_occurrence) (fun _ _ => checkDocumentField_information)
    fun _ => checkDocumentField_of_ne]
  exact ⟨fun h => ⟨h.1, h.2⟩, fun h => ⟨h.1, h.2⟩⟩

/-- The bytes of an index are accepted exactly when the index is valid. -/
theorem decodeIndex_isOk_iff {value : IndexValue} {bytes : List UInt8}
    (h : EncodesIndex value bytes) : (∃ index, decodeIndex bytes = .ok index) ↔ value.Valid := by
  obtain ⟨all, hall, hdocuments, hsymbols⟩ := h
  have hcheck : (∃ index, decodeIndex bytes = .ok index) ↔
      all.foldlM checkIndexField () = .ok () := by
    rw [decodeIndex, eachField_encoded hall]
    constructor
    · intro hok
      obtain ⟨index, hindex⟩ := hok
      obtain ⟨⟨⟩, hfold, _⟩ := bind_eq_ok_iff.mp hindex
      exact hfold
    · exact fun hfold => ⟨⟨bytes⟩, by rw [hfold]; rfl⟩
  rw [hcheck, foldlM_check_repeated hdocuments hsymbols (fun _ _ => checkIndexField_document)
    (fun _ _ => checkIndexField_information) fun _ => checkIndexField_of_ne]
  exact ⟨fun h => ⟨h.1, h.2⟩, fun h => ⟨h.1, h.2⟩⟩

end Accepts

/-! ## What the views show -/

theorem map_filter_eq_filterMap (items : List (Str × Bool)) :
    (items.filter Prod.snd).map Prod.fst =
      items.filterMap fun found => if found.2 then some found.1 else none := by
  induction items with
  | nil => rfl
  | cons first rest ih =>
      obtain ⟨symbol, flag⟩ := first
      cases flag with
      | true => exact congrArg (symbol :: ·) ih
      | false => exact ih

section Views

variable {α : Type} {parse : List UInt8 → Except Fault α} {bytes : List UInt8} {wanted : ℕ}

/-- The bytes are fields, and every one under the number is a message that parses as the item in its
place. -/
def Lists (bytes : List UInt8) (wanted : ℕ) (parse : List UInt8 → Except Fault α)
    (items : List α) : Prop :=
  ∃ (all : List Field) (payloads : List (List UInt8)), fields bytes = all.map .ok ∧
    valuesOf wanted all = payloads.map .bytes ∧ payloads.map parse = items.map .ok

theorem messages_eq {all : List Field} {payloads : List (List UInt8)}
    (hall : fields bytes = all.map .ok) (hpayloads : valuesOf wanted all = payloads.map .bytes) :
    messages bytes wanted = payloads := by
  have hread : ((fields bytes).map Except.toOption).takeWhile Option.isSome = all.map some := by
    have hsome : all.map (Except.toOption ∘ (Except.ok : Field → Except Fault Field)) =
        all.map some := rfl
    rw [hall, map_map, hsome, takeWhile_eq_self_iff]
    intro found hfound
    obtain ⟨field, _, rfl⟩ := mem_map.mp hfound
    rfl
  have hvalues : (all.map some).filterMap (fun found => found.bind fun field =>
      if field.1 = wanted then (bytesOf field.2).toOption else none) =
        (valuesOf wanted all).filterMap fun value => (bytesOf value).toOption := by
    rw [valuesOf, filterMap_map, filterMap_filterMap]
    congr 1
    funext field
    dsimp only [Function.comp_apply, Option.bind_some]
    split_ifs with hnumber
    · rfl
    · rfl
  rw [messages, hread, hvalues, hpayloads, filterMap_map]
  exact filterMap_some

/-- A view of messages that all parse leaves none of them out. -/
theorem lists_of_forall {all : List Field} (hall : fields bytes = all.map .ok)
    (hparse : ∀ field ∈ all, field.1 = wanted → ∃ payload item,
      field.2 = .bytes payload ∧ parse payload = .ok item) :
    Lists bytes wanted parse
      ((messages bytes wanted).filterMap fun payload => (parse payload).toOption) := by
  have hpayloads : ∃ payloads : List (List UInt8), valuesOf wanted all = payloads.map .bytes ∧
      ∀ payload ∈ payloads, ∃ item, parse payload = .ok item := by
    clear hall
    induction all with
    | nil => exact ⟨[], rfl, fun _ h => (nomatch h)⟩
    | cons first rest ih =>
        obtain ⟨hfirst, hrest⟩ := forall_mem_cons.mp hparse
        obtain ⟨payloads, hpayloads, hok⟩ := ih hrest
        obtain ⟨number, value⟩ := first
        by_cases hnumber : number = wanted
        · obtain ⟨payload, item, hvalue, hitem⟩ := hfirst hnumber
          obtain rfl : value = .bytes payload := hvalue
          refine ⟨payload :: payloads, ?_, forall_mem_cons.mpr ⟨⟨item, hitem⟩, hok⟩⟩
          rw [hnumber, valuesOf_cons_self, hpayloads, map_cons]
        · exact ⟨payloads, by rw [valuesOf_cons_of_ne hnumber, hpayloads], hok⟩
  obtain ⟨payloads, hpayloads, hok⟩ := hpayloads
  refine ⟨all, payloads, hall, hpayloads, ?_⟩
  rw [messages_eq hall hpayloads]
  clear hpayloads
  induction payloads with
  | nil => rfl
  | cons payload rest ih =>
      obtain ⟨⟨item, hitem⟩, hrest⟩ := forall_mem_cons.mp hok
      rw [map_cons, ih hrest, hitem, filterMap_cons, hitem]
      rfl

theorem Lists.exists_payload {items : List α} (h : Lists bytes wanted parse items)
    {all : List Field} (hall : fields bytes = all.map .ok) {item : α} (hitem : item ∈ items) :
    ∃ payload, (wanted, .bytes payload) ∈ all ∧ parse payload = .ok item := by
  obtain ⟨all', payloads, hall', hpayloads, hitems⟩ := h
  have hok : Function.Injective (Except.ok : Field → Except Fault Field) :=
    fun _ _ h => ok.inj h
  rw [hall] at hall'
  obtain rfl := map_injective_iff.mpr hok hall'
  have hmem : (.ok item : Except Fault α) ∈ payloads.map parse := by
    rw [hitems]
    exact mem_map_of_mem hitem
  obtain ⟨payload, hpayload, hparse⟩ := mem_map.mp hmem
  refine ⟨payload, ?_, hparse⟩
  rw [← mem_valuesOf, hpayloads]
  exact mem_map_of_mem hpayload

/-- A view of an encoded message shows the items that it encodes. -/
theorem Lists.forall₂ {β : Type} {encodes : β → List UInt8 → Prop} {values : List β}
    {items : List α} (h : Lists bytes wanted parse items) {all : List Field}
    (hall : EncodesFields all bytes) (hvalues : HasMessages wanted encodes values all) :
    List.Forall₂ (fun value item => ∃ payload, encodes value payload ∧ parse payload = .ok item)
      values items := by
  obtain ⟨all', payloads, hfields, hpayloads, hitems⟩ := h
  obtain ⟨payloads', hpayloads', hencodes⟩ := hvalues
  have hok : Function.Injective (Except.ok : Field → Except Fault Field) :=
    fun _ _ h => ok.inj h
  have hbytes : Function.Injective Value.bytes := fun _ _ h => Value.bytes.inj h
  rw [fields_of_encodesFields hall] at hfields
  obtain rfl := map_injective_iff.mpr hok hfields
  rw [hpayloads] at hpayloads'
  obtain rfl := map_injective_iff.mpr hbytes hpayloads'
  clear hpayloads hpayloads' hfields
  induction hencodes generalizing items with
  | nil =>
      obtain rfl := map_eq_nil_iff.mp hitems.symm
      exact .nil
  | @cons value payload values rest hvalue _ ih =>
      obtain ⟨item, more, rfl, hitem, hmore⟩ := map_eq_cons_iff.mp hitems.symm
      exact .cons ⟨payload, hvalue, hitem.symm⟩ (ih hmore.symm)

end Views

/-! ## Any bytes -/

section Any

variable {bytes : List UInt8}

/-- A symbol information that is read has been read from fields whose relationships parse. -/
theorem information_spec {found : InformationView} (h : information bytes = .ok found) :
    found.body = bytes ∧ ∃ all : List Field, fields bytes = all.map .ok ∧
      ∀ field ∈ all, field.1 = 4 → ∃ payload item,
        field.2 = .bytes payload ∧ relationship payload = .ok item := by
  obtain ⟨read, hread, hsome⟩ := bind_eq_ok_iff.mp h
  obtain ⟨all, hall, hfold⟩ := eachField_eq_ok_iff.mp hread
  constructor
  · have hbody : read.body = bytes := by
      refine foldlM_keeps (P := fun state => state.body = bytes) ?_ hfold rfl
      intro state next field hstep hbody
      rw [InformationView.field.eq_def] at hstep
      split at hstep
      · obtain ⟨_, _, hnext⟩ := bind_eq_ok_iff.mp hstep
        rw [← ok.inj hnext]
        exact hbody
      · obtain ⟨_, _, hparsed⟩ := bind_eq_ok_iff.mp hstep
        obtain ⟨_, _, hnext⟩ := bind_eq_ok_iff.mp hparsed
        rwa [← ok.inj hnext]
      · obtain ⟨_, _, hnext⟩ := bind_eq_ok_iff.mp hstep
        rw [← ok.inj hnext]
        exact hbody
      · rwa [← ok.inj hstep]
    split_ifs at hsome
    rwa [← ok.inj hsome]
  · refine ⟨all, hall, fun field hfield hnumber => ?_⟩
    obtain ⟨state, next, hstep⟩ := exists_step_of_foldlM hfold hfield
    obtain ⟨number, value⟩ := field
    obtain rfl : number = 4 := hnumber
    rw [InformationView.field] at hstep
    obtain ⟨payload, hpayload, hparsed⟩ := bind_eq_ok_iff.mp hstep
    obtain ⟨item, hitem, _⟩ := bind_eq_ok_iff.mp hparsed
    exact ⟨payload, item, bytesOf_eq_ok_iff.mp hpayload, hitem⟩

theorem exists_of_bytesOf {parse : List UInt8 → Except Fault α} {check : α → Except Fault β}
    {value : Value} {result : β}
    (h : (bytesOf value >>= fun payload => parse payload >>= check) = .ok result) :
    ∃ payload found, value = .bytes payload ∧ parse payload = .ok found ∧
      check found = .ok result := by
  obtain ⟨payload, hpayload, hparsed⟩ := bind_eq_ok_iff.mp h
  obtain ⟨found, hfound, hchecked⟩ := bind_eq_ok_iff.mp hparsed
  exact ⟨payload, found, bytesOf_eq_ok_iff.mp hpayload, hfound, hchecked⟩

/-- A document field that was accepted parses. -/
theorem exists_of_checkDocumentField {number : ℕ} {value : Value}
    (h : checkDocumentField () (number, value) = .ok ()) :
    (number = 2 → ∃ payload found, value = .bytes payload ∧ occurrence payload = .ok found) ∧
      (number = 3 → ∃ payload found, value = .bytes payload ∧ information payload = .ok found) := by
  constructor
  all_goals
    rintro rfl
    rw [checkDocumentField] at h
    obtain ⟨payload, found, hvalue, hfound, _⟩ := exists_of_bytesOf h
    exact ⟨payload, found, hvalue, hfound⟩

/-- An index field that was accepted parses, and the fields of a document were accepted with it. -/
theorem exists_of_checkIndexField {number : ℕ} {value : Value}
    (h : checkIndexField () (number, value) = .ok ()) :
    (number = 2 → ∃ payload found, value = .bytes payload ∧ document payload = .ok found ∧
      ∃ all : List Field, fields found.body = all.map .ok ∧
        ∀ field ∈ all, checkDocumentField () field = .ok ()) ∧
      (number = 3 → ∃ payload found, value = .bytes payload ∧ information payload = .ok found) := by
  constructor
  · rintro rfl
    rw [checkIndexField] at h
    obtain ⟨payload, found, hvalue, hfound, hchecked⟩ := exists_of_bytesOf h
    obtain ⟨all, hall, hfold⟩ := eachField_eq_ok_iff.mp hchecked
    exact ⟨payload, found, hvalue, hfound, all, hall, foldlM_check_eq_ok_iff.mp hfold⟩
  · rintro rfl
    rw [checkIndexField] at h
    obtain ⟨payload, found, hvalue, hfound, _⟩ := exists_of_bytesOf h
    exact ⟨payload, found, hvalue, hfound⟩

theorem decodeIndex_spec {index : Index} (h : decodeIndex bytes = .ok index) :
    index.bytes = bytes ∧ ∃ all : List Field, fields bytes = all.map .ok ∧
      ∀ field ∈ all, checkIndexField () field = .ok () := by
  obtain ⟨⟨⟩, hchecked, hindex⟩ := bind_eq_ok_iff.mp h
  obtain ⟨all, hall, hfold⟩ := eachField_eq_ok_iff.mp hchecked
  obtain rfl := ok.inj hindex
  exact ⟨rfl, all, hall, foldlM_check_eq_ok_iff.mp hfold⟩

/-- No view of an index leaves a message out. -/
structure Index.Whole (index : Index) : Prop where
  documents : Lists index.bytes 2 document index.documents
  occurrences : ∀ found ∈ index.documents, Lists found.body 2 occurrence found.occurrences
  informations : ∃ (symbols : List (List InformationView)) (externals : List InformationView),
    List.Forall₂ (fun found symbols => Lists found.body 3 information symbols)
      index.documents symbols ∧
    Lists index.bytes 3 information externals ∧ index.informations = symbols.flatten ++ externals
  implements : ∀ found ∈ index.informations, ∃ relationships,
    Lists found.body 4 relationship relationships ∧
      found.implements = (relationships.filter Prod.snd).map Prod.fst

/-- What is checked is what the views read. -/
theorem whole_of_decodeIndex {index : Index} (h : decodeIndex bytes = .ok index) :
    index.Whole := by
  obtain ⟨rfl, all, hall, hchecked⟩ := decodeIndex_spec h
  have hdocuments : Lists index.bytes 2 document index.documents := by
    refine lists_of_forall hall ?_
    intro field hfield hnumber
    obtain ⟨payload, found, hpayload, hfound, _⟩ :=
      (exists_of_checkIndexField (hchecked field hfield)).1 hnumber
    exact ⟨payload, found, hpayload, hfound⟩
  have hfields : ∀ found ∈ index.documents, ∃ all : List Field, fields found.body = all.map .ok ∧
      ∀ field ∈ all, checkDocumentField () field = .ok () := by
    intro found hfound
    obtain ⟨payload, hmem, hparsed⟩ := hdocuments.exists_payload hall hfound
    obtain ⟨payload', found', hpayload, hparsed', hrest⟩ :=
      (exists_of_checkIndexField (hchecked _ hmem)).1 rfl
    obtain rfl := Value.bytes.inj hpayload
    rw [hparsed] at hparsed'
    obtain rfl := ok.inj hparsed'
    exact hrest
  refine ⟨hdocuments, ?_, ?_, ?_⟩
  · intro found hfound
    obtain ⟨all, hall, hchecked⟩ := hfields found hfound
    exact lists_of_forall hall fun field hfield hnumber =>
      (exists_of_checkDocumentField (hchecked field hfield)).1 hnumber
  · refine ⟨index.documents.map fun found => (messages found.body 3).filterMap fun payload =>
      (information payload).toOption, (messages index.bytes 3).filterMap fun payload =>
      (information payload).toOption, ?_, ?_, ?_⟩
    · rw [forall₂_map_right_iff, forall₂_same]
      intro found hfound
      obtain ⟨all, hall, hchecked⟩ := hfields found hfound
      exact lists_of_forall hall fun field hfield hnumber =>
        (exists_of_checkDocumentField (hchecked field hfield)).2 hnumber
    · exact lists_of_forall hall fun field hfield hnumber =>
        (exists_of_checkIndexField (hchecked field hfield)).2 hnumber
    · rw [Index.informations, filterMap_append, filterMap_flatMap, List.flatMap]
  · intro found hfound
    obtain ⟨payload, _, hparsed⟩ := mem_filterMap.mp hfound
    obtain ⟨rfl, all, hall, hrelationships⟩ :=
      information_spec (toOption_eq_some_iff.mp hparsed)
    refine ⟨_, lists_of_forall hall hrelationships, ?_⟩
    rw [InformationView.implements, map_filter_eq_filterMap, filterMap_filterMap]

end Any

/-! ## Refusals -/

section Refusals

/-- A read that fails is refused: it neither leaves the bytes nor goes on for ever. -/
def Refuses {α : Type} (outcome : Except Fault α) : Prop :=
  ∀ fault, outcome = .error fault → fault = .decode

theorem Refuses.ok {α : Type} (value : α) : Refuses (.ok value) := fun _ h => (nomatch h)

theorem Refuses.decode {α : Type} : Refuses (.error .decode : Except Fault α) :=
  fun _ h => (Except.error.inj h).symm

theorem Refuses.bind {α β : Type} {first : Except Fault α} {next : α → Except Fault β}
    (hfirst : Refuses first) (hnext : ∀ value, first = .ok value → Refuses (next value)) :
    Refuses (first >>= next) :=
  forall_error_bind hfirst hnext

theorem bytesOf_refuses (value : Value) : Refuses (bytesOf value) := fun _ => bytesOf_error

theorem strOf_refuses (value : Value) : Refuses (strOf value) := fun _ => strOf_error

theorem varintOf_refuses (value : Value) : Refuses (varintOf value) := fun _ => varintOf_error

theorem eachField_refuses {σ : Type} {step : σ → Field → Except Fault σ}
    (hstep : ∀ state field, Refuses (step state field)) (bytes : List UInt8) (start : σ) :
    Refuses (eachField step bytes start) :=
  fun _ => eachField_error fun {state field} _ h => hstep state field _ h

theorem document_refuses (bytes : List UInt8) : Refuses (document bytes) := by
  refine eachField_refuses (fun state field => ?_) _ _
  rw [DocumentView.field.eq_def]
  split
  · exact (strOf_refuses _).bind fun _ _ => .ok _
  · exact (strOf_refuses _).bind fun _ _ => .ok _
  · exact .ok _

theorem relationship_refuses (bytes : List UInt8) : Refuses (relationship bytes) := by
  refine eachField_refuses (fun state field => ?_) _ _
  rw [relationshipField.eq_def]
  split
  · exact (strOf_refuses _).bind fun _ _ => .ok _
  · exact (varintOf_refuses _).bind fun _ _ => .ok _
  · exact .ok _

theorem information_refuses (bytes : List UInt8) : Refuses (information bytes) := by
  refine .bind (eachField_refuses (fun state field => ?_) _ _) fun found _ => ?_
  · rw [InformationView.field.eq_def]
    split
    · exact (strOf_refuses _).bind fun _ _ => .ok _
    · exact (bytesOf_refuses _).bind fun _ _ =>
        (relationship_refuses _).bind fun _ _ => .ok _
    · exact (varintOf_refuses _).bind fun _ _ => .ok _
    · exact .ok _
  · split_ifs
    · exact .decode
    · exact .ok _

theorem wantedField_refuses (wanted state : List ℕ) (field : Field) :
    Refuses (wantedField wanted state field) := by
  rw [wantedField]
  split
  · exact (varintOf_refuses _).bind fun _ _ => .ok _
  · exact .ok _

/-- As many numbers are found as are wanted. -/
theorem length_messageVarints {bytes : List UInt8} {wanted found : List ℕ}
    (h : messageVarints bytes wanted = .ok found) :
    found.length = wanted.length := by
  obtain ⟨all, _, hfold⟩ := eachField_eq_ok_iff.mp h
  refine foldlM_keeps (P := fun state => state.length = wanted.length) ?_ hfold
    (length_map _)
  intro state next field hstep hlength
  rw [wantedField] at hstep
  split at hstep
  · obtain ⟨_, _, hnext⟩ := bind_eq_ok_iff.mp hstep
    rw [← ok.inj hnext, length_set, hlength]
  · rwa [← ok.inj hstep]

/-- Packed coordinates are read within their bytes. -/
theorem pushPacked_refuses (fuel : ℕ) {reader : Reader} (range : List ℕ)
    (hwithin : reader.at_ ≤ reader.bytes.length)
    (hfuel : reader.bytes.length - reader.at_ ≤ fuel) : Refuses (pushPacked fuel reader range) := by
  induction fuel generalizing reader range with
  | zero =>
      rw [pushPacked, if_neg (by omega)]
      exact .ok _
  | succ fuel ih =>
      rw [pushPacked]
      split_ifs
      · refine .bind (fun _ => Reader.varint_error) fun read hread => ?_
        obtain ⟨value, next⟩ := read
        have hnext := Reader.varint_advances hread
        refine .bind ?_ fun _ _ => ih _ (hnext.bytes ▸ hnext.within) ?_
        · rw [push]
          split_ifs
          · exact .ok _
          · exact .decode
        · have hforward := hnext.forward
          rw [hnext.bytes]
          omega
      · exact .ok _

theorem occurrenceField_refuses (state : OccurrenceState) (field : Field) :
    Refuses (state.field field) := by
  rw [OccurrenceState.field.eq_def]
  split
  · rename_i packed
    exact (@pushPacked_refuses packed.length ⟨packed, 0⟩ _ (Nat.zero_le _) (Nat.sub_le _ _)).bind
      fun _ _ => .ok _
  · refine .bind ?_ fun _ _ => .ok _
    rw [push]
    split_ifs
    · exact .ok _
    · exact .decode
  · exact (strOf_refuses _).bind fun _ _ => .ok _
  · exact (varintOf_refuses _).bind fun _ _ => .ok _
  · refine (bytesOf_refuses _).bind fun _ _ =>
      (eachField_refuses (wantedField_refuses _) _ _).bind fun found hfound => ?_
    -- the three coordinates are there
    obtain ⟨_, _, _, rfl⟩ := length_eq_three.mp (length_messageVarints hfound)
    exact .ok _
  · refine (bytesOf_refuses _).bind fun _ _ =>
      (eachField_refuses (wantedField_refuses _) _ _).bind fun found hfound => ?_
    have hfour : found.length = 4 := length_messageVarints hfound
    obtain ⟨_, rest, rfl⟩ := exists_cons_of_length_eq_add_one hfour
    obtain ⟨_, _, _, rfl⟩ := length_eq_three.mp (Nat.succ.inj hfour)
    exact .ok _
  · exact .ok _

theorem occurrence_refuses (bytes : List UInt8) : Refuses (occurrence bytes) := by
  refine (eachField_refuses occurrenceField_refuses _ _).bind fun state _ =>
    Refuses.bind ?_ fun range _ => ?_
  · rw [OccurrenceState.coordinates.eq_def]
    split
    · exact .ok _
    · exact .ok _
    · exact .ok _
    · exact .decode
  · have hline : ∀ value, Refuses (line value) := by
      intro value
      rw [line]
      split_ifs
      · exact .ok _
      · exact .decode
    split_ifs
    · exact (hline _).bind fun _ _ => (hline _).bind fun _ _ => .ok _
    · exact .decode

/-- Any bytes are decoded, or refused. -/
theorem decodeIndex_refuses (bytes : List UInt8) : Refuses (decodeIndex bytes) := by
  refine (eachField_refuses (fun state field => ?_) _ _).bind fun _ _ => .ok _
  rw [checkIndexField.eq_def]
  split
  · refine (bytesOf_refuses _).bind fun _ _ => (document_refuses _).bind fun _ _ =>
      eachField_refuses (fun state field => ?_) _ _
    rw [checkDocumentField.eq_def]
    split
    · exact (bytesOf_refuses _).bind fun _ _ => (occurrence_refuses _).bind fun _ _ => .ok _
    · exact (bytesOf_refuses _).bind fun _ _ => (information_refuses _).bind fun _ _ => .ok _
    · exact .ok _
  · exact (bytesOf_refuses _).bind fun _ _ => (information_refuses _).bind fun _ _ => .ok _
  · exact .ok _

end Refusals

/-! ## The value that is shown -/

section Shown

structure Document.ShownBy (value : Document) (view : DocumentView) : Prop where
  path : view.path = value.path
  text : view.text = value.text
  occurrences : view.occurrences = value.occurrences.map Occurrence.view

structure SymbolInformation.ShownBy (value : SymbolInformation) (view : InformationView) :
    Prop where
  symbol : view.symbol = value.symbol
  kind : view.kind = value.kind
  implements : view.implements = value.implements

variable {α β : Type} {R S : α → β → Prop} {values : List α} {items : List β}

theorem forall₂_imp_mem (h : List.Forall₂ R values items)
    (himp : ∀ value ∈ values, ∀ item ∈ items, R value item → S value item) :
    List.Forall₂ S values items := by
  induction h with
  | nil => exact .nil
  | @cons value item values items hfirst _ ih =>
      refine .cons (himp value mem_cons_self item mem_cons_self hfirst) (ih ?_)
      exact fun value hvalue item hitem =>
        himp value (mem_cons_of_mem _ hvalue) item (mem_cons_of_mem _ hitem)

/-- The occurrences of an encoded document are shown. -/
theorem occurrences_shown {value : Document} {bytes : List UInt8} {found : List OccurrenceView}
    (hencodes : EncodesDocument value bytes) (hlists : Lists bytes 2 occurrence found) :
    found = value.occurrences.map Occurrence.view := by
  obtain ⟨all, hall, _, hoccurrences, _⟩ := hencodes
  have hsame : List.Forall₂ (fun item view => view = Occurrence.view item)
      value.occurrences found := by
    refine (hlists.forall₂ hall hoccurrences).imp ?_
    intro item view hparsed
    obtain ⟨payload, hitem, hview⟩ := hparsed
    rw [occurrence_encoded hitem] at hview
    split_ifs at hview
    exact (ok.inj hview).symm
  clear hlists hoccurrences
  generalize value.occurrences = items at hsame ⊢
  induction hsame with
  | nil => rfl
  | cons hfirst _ ih => rw [hfirst, ih, map_cons]

/-- The symbols of an encoded message are shown. -/
theorem informations_shown {values : List SymbolInformation} {bytes : List UInt8}
    {found : List InformationView} {all : List Field} (hall : EncodesFields all bytes)
    (hvalues : HasMessages 3 EncodesInformation values all)
    (hlists : Lists bytes 3 information found)
    (himplements : ∀ view ∈ found, ∃ relationships, Lists view.body 4 relationship relationships ∧
      view.implements = (relationships.filter Prod.snd).map Prod.fst) :
    List.Forall₂ SymbolInformation.ShownBy values found := by
  refine forall₂_imp_mem (hlists.forall₂ hall hvalues) ?_
  intro value _ view hview hparsed
  obtain ⟨payload, hvalue, hinformation⟩ := hparsed
  rw [information_encoded hvalue] at hinformation
  split_ifs at hinformation
  obtain rfl := ok.inj hinformation
  obtain ⟨relationships, hrelationships, himplemented⟩ := himplements _ hview
  obtain ⟨all, hall, _, hmessages, _⟩ := hvalue
  refine ⟨rfl, rfl, ?_⟩
  rw [himplemented, SymbolInformation.implements]
  have hsame : List.Forall₂ (fun item parsed => parsed = (item.symbol, item.isImplementation))
      value.relationships relationships := by
    refine (hrelationships.forall₂ hall hmessages).imp ?_
    intro item parsed hparsed
    obtain ⟨payload, hitem, hparsed⟩ := hparsed
    rw [relationship_encoded hitem] at hparsed
    exact (ok.inj hparsed).symm
  clear himplemented hrelationships hmessages hview
  generalize value.relationships = items at hsame
  induction hsame with
  | nil => rfl
  | @cons item parsed _ _ hfirst _ ih =>
      rw [hfirst, filter_cons, filter_cons]
      dsimp only
      split_ifs
      · rw [map_cons, map_cons, ih]
      · exact ih

theorem shown_of_encodesIndex {value : IndexValue} {index : Index}
    (hencodes : EncodesIndex value index.bytes) (hwhole : index.Whole) :
    List.Forall₂ Document.ShownBy value.documents index.documents ∧
      List.Forall₂ SymbolInformation.ShownBy value.informations index.informations := by
  obtain ⟨all, hall, hdocuments, hexternals⟩ := hencodes
  have hread := hwhole.documents.forall₂ hall hdocuments
  constructor
  · refine forall₂_imp_mem hread ?_
    intro item _ view hview hparsed
    obtain ⟨payload, hitem, hdocument⟩ := hparsed
    rw [document_encoded hitem] at hdocument
    obtain rfl := ok.inj hdocument
    exact ⟨rfl, rfl, occurrences_shown hitem (hwhole.occurrences _ hview)⟩
  · obtain ⟨symbols, externals, hsymbols, hlisted, hinformations⟩ := hwhole.informations
    have himplements := hwhole.implements
    rw [hinformations] at himplements ⊢
    refine rel_append (rel_flatten ?_) (informations_shown hall hexternals hlisted
      fun view hview => himplements view (mem_append_right _ hview))
    rw [forall₂_map_left_iff]
    have himplements' : ∀ part ∈ symbols, ∀ view ∈ part, ∃ relationships,
        Lists view.body 4 relationship relationships ∧
          view.implements = (relationships.filter Prod.snd).map Prod.fst :=
      fun part hpart view hview => himplements view
        (mem_append_left _ (mem_flatten_of_mem hpart hview))
    clear himplements hinformations hdocuments
    generalize value.documents = values at hread ⊢
    generalize index.documents = views at hread hsymbols
    -- each document with its view, and the view with its symbols
    induction hread generalizing symbols with
    | nil =>
        obtain rfl := forall₂_nil_left_iff.mp hsymbols
        exact .nil
    | @cons item view _ _ hfirst _ ih =>
        obtain ⟨part, parts, hpart, hparts, rfl⟩ := forall₂_cons_left_iff.mp hsymbols
        refine .cons ?_ (ih parts (fun part hmem =>
          himplements' part (mem_cons_of_mem _ hmem)) hparts)
        obtain ⟨payload, hitem, hdocument⟩ := hfirst
        rw [document_encoded hitem] at hdocument
        obtain rfl := ok.inj hdocument
        obtain ⟨all, hall, _, _, hmessages, _⟩ := hitem
        exact informations_shown hall hmessages hpart (himplements' part mem_cons_self)

end Shown

/-- Decoding is exact: an encoded index is accepted exactly when it is valid, and the views then
show it; any bytes are decoded or refused, and no view of what was decoded leaves a message out. -/
theorem decodeIndex_exact :
    (∀ (value : IndexValue) (bytes : List UInt8), EncodesIndex value bytes →
      ((∃ index, decodeIndex bytes = .ok index) ↔ value.Valid) ∧
      ∀ index, decodeIndex bytes = .ok index →
        List.Forall₂ Document.ShownBy value.documents index.documents ∧
        List.Forall₂ SymbolInformation.ShownBy value.informations index.informations) ∧
    ∀ bytes : List UInt8, Refuses (decodeIndex bytes) ∧
      ∀ index, decodeIndex bytes = .ok index → index.Whole := by
  constructor
  · intro value bytes hencodes
    refine ⟨decodeIndex_isOk_iff hencodes, fun index hindex => ?_⟩
    obtain ⟨rfl, _⟩ := decodeIndex_spec hindex
    exact shown_of_encodesIndex hencodes (whole_of_decodeIndex hindex)
  · exact fun bytes => ⟨decodeIndex_refuses bytes, fun index => whole_of_decodeIndex⟩

/-- A document `a` with one occurrence of `b` and the symbol `b`, the key of the document in two
bytes. -/
example :
    (decodeIndex [0x92, 0, 18, 10, 1, 97, 18, 8, 10, 3, 1, 2, 3, 18, 1, 98, 26, 3, 10, 1, 98]).map
      (fun index => index.documents.map fun document => (document.path, document.occurrences)) =
        .ok [(['a'], [⟨['b'], false, 1, 1⟩])] := by
  decide +kernel

end Bran.Scip
