import Bran.Scip.Value

/-!
# Messages of an index

What one pass over the fields of a message gives: of any bytes, and of the bytes that encode a
value.
-/

namespace Bran.Scip

open Protobuf Reading Validation List

/-! ## Passes over the fields -/

section Passes

variable {σ : Type} {step : σ → Field → Except Fault σ}

/-- A pass succeeds if the bytes are fields and every step succeeds. -/
theorem eachField_eq_ok_iff {bytes : List UInt8} {start final : σ} :
    eachField step bytes start = .ok final ↔
      ∃ all : List Field, fields bytes = all.map .ok ∧ all.foldlM step start = .ok final := by
  rw [eachField]
  generalize fields bytes = read
  induction read generalizing start with
  | nil =>
      constructor
      · exact fun h => ⟨[], rfl, h⟩
      · intro h
        obtain ⟨all, hall, hfold⟩ := h
        obtain rfl := map_eq_nil_iff.mp hall.symm
        exact hfold
  | cons found rest ih =>
      rw [foldlM_cons]
      constructor
      · intro h
        obtain ⟨next, hstep, hrest⟩ := bind_eq_ok_iff.mp h
        obtain ⟨field, rfl, hfield⟩ := bind_eq_ok_iff.mp hstep
        obtain ⟨all, rfl, hfold⟩ := ih.mp hrest
        refine ⟨field :: all, rfl, ?_⟩
        rw [foldlM_cons, hfield, ok_bind, hfold]
      · intro h
        obtain ⟨all, hall, hfold⟩ := h
        obtain ⟨field, more, rfl, rfl, hmore⟩ := map_eq_cons_iff.mp hall.symm
        rw [foldlM_cons] at hfold
        obtain ⟨next, hfield, hrest⟩ := bind_eq_ok_iff.mp hfold
        rw [ok_bind, hfield, ok_bind]
        exact ih.mpr ⟨more, hmore.symm, hrest⟩

/-- A pass over the bytes of a message is one over its fields. -/
theorem eachField_encoded {all : List Field} {enc : List UInt8} (h : EncodesFields all enc)
    (start : σ) : eachField step enc start = all.foldlM step start := by
  rw [eachField, fields_of_encodesFields h, foldlM_map]
  rfl

theorem eachField_error
    (hstep : ∀ {state : σ} {field : Field} {fault : Fault},
      step state field = .error fault → fault = .decode)
    {bytes : List UInt8} {start : σ} {fault : Fault}
    (h : eachField step bytes start = .error fault) : fault = .decode := by
  have hread : ∀ {fault : Fault}, .error fault ∈ fields bytes → fault = .decode := fields_error
  rw [eachField] at h
  revert hread h
  generalize fields bytes = read
  induction read generalizing start with
  | nil => exact fun h _ => (nomatch h)
  | cons found rest ih =>
      intro h hread
      rw [foldlM_cons] at h
      rcases bind_eq_error_iff.mp h with hfirst | ⟨next, _, hrest⟩
      · rcases bind_eq_error_iff.mp hfirst with hfound | ⟨field, _, hfield⟩
        · exact hread (hfound ▸ mem_cons_self)
        · exact hstep hfield
      · exact ih hrest fun hmem => hread (mem_cons_of_mem _ hmem)

/-- A pass that succeeds has stepped over every field. -/
theorem exists_step_of_foldlM {all : List Field} {start final : σ}
    (h : all.foldlM step start = .ok final) {field : Field} (hmem : field ∈ all) :
    ∃ state next, step state field = .ok next := by
  induction all generalizing start with
  | nil => cases hmem
  | cons first rest ih =>
      rw [foldlM_cons] at h
      obtain ⟨next, hfirst, hrest⟩ := bind_eq_ok_iff.mp h
      rcases mem_cons.mp hmem with rfl | hlater
      · exact ⟨start, next, hfirst⟩
      · exact ih hrest hlater

/-- What every step keeps, a pass keeps. -/
theorem foldlM_keeps {P : σ → Prop}
    (hstep : ∀ {state next : σ} {field : Field}, step state field = .ok next → P state → P next)
    {all : List Field} {start final : σ} (h : all.foldlM step start = .ok final)
    (hstart : P start) : P final := by
  induction all generalizing start with
  | nil =>
      obtain rfl : start = final := Except.ok.inj h
      exact hstart
  | cons first rest ih =>
      rw [foldlM_cons] at h
      obtain ⟨next, hfirst, hrest⟩ := bind_eq_ok_iff.mp h
      exact ih hrest (hstep hfirst hstart)

/-- A pass that only checks the fields. -/
theorem foldlM_check_eq_ok_iff {check : Unit → Field → Except Fault Unit} {all : List Field} :
    all.foldlM check () = .ok () ↔ ∀ field ∈ all, check () field = .ok () := by
  induction all with
  | nil => exact ⟨fun _ _ h => (nomatch h), fun _ => rfl⟩
  | cons first rest ih =>
      rw [foldlM_cons, forall_mem_cons, ← ih]
      constructor
      · intro h
        obtain ⟨⟨⟩, hfirst, hrest⟩ := bind_eq_ok_iff.mp h
        exact ⟨hfirst, hrest⟩
      · intro h
        rw [h.1, ok_bind, h.2]

end Passes

/-! ## Values -/

@[simp] theorem strOf_text (text : Str) : strOf (.bytes (Text.bytes text)) = .ok text := by
  simp [strOf, bytesOf, Text.fromUtf8_bytes, pure, Except.pure]

theorem bytesOf_eq_ok_iff {value : Value} {bytes : List UInt8} :
    bytesOf value = .ok bytes ↔ value = .bytes bytes := by
  cases value <;> simp [bytesOf]

theorem bytesOf_error {value : Value} {fault : Fault} (h : bytesOf value = .error fault) :
    fault = .decode := by
  cases value with
  | varint _ => exact (Except.error.inj h).symm
  | bytes _ => cases h
  | fixed => exact (Except.error.inj h).symm

theorem varintOf_error {value : Value} {fault : Fault} (h : varintOf value = .error fault) :
    fault = .decode := by
  cases value with
  | varint _ => cases h
  | bytes _ | fixed => exact (Except.error.inj h).symm

theorem strOf_error {value : Value} {fault : Fault} (h : strOf value = .error fault) :
    fault = .decode := by
  rw [strOf] at h
  rcases bind_eq_error_iff.mp h with hbytes | ⟨bytes, _, htext⟩
  · exact bytesOf_error hbytes
  · cases hfound : Text.fromUtf8 bytes with
    | none =>
        rw [hfound] at htext
        exact (Except.error.inj htext).symm
    | some text =>
        rw [hfound] at htext
        cases htext

/-! ## Messages that encode a value -/

section Written

variable {all : List Field}

theorem foldlM_document {paths texts : List Str}
    (hpaths : valuesOf 1 all = paths.map fun text => .bytes (Text.bytes text))
    (htexts : valuesOf 5 all = texts.map fun text => .bytes (Text.bytes text))
    (start : DocumentView) :
    all.foldlM DocumentView.field start =
      .ok ⟨paths.getLastD start.path, texts.getLastD start.text, start.body⟩ := by
  induction all generalizing paths texts start with
  | nil =>
      obtain rfl := map_eq_nil_iff.mp hpaths.symm
      obtain rfl := map_eq_nil_iff.mp htexts.symm
      rfl
  | cons first rest ih =>
      obtain ⟨number, value⟩ := first
      rw [foldlM_cons]
      by_cases hone : number = 1
      · subst hone
        obtain ⟨path, more, rfl, rfl, hmore⟩ := valuesOf_cons_eq_map hpaths
        rw [valuesOf_cons_of_ne (by omega)] at htexts
        rw [DocumentView.field, strOf_text, ok_bind]
        exact (ih hmore htexts _).trans (by rw [getLastD_cons])
      by_cases hfive : number = 5
      · subst hfive
        obtain ⟨text, more, rfl, rfl, hmore⟩ := valuesOf_cons_eq_map htexts
        rw [valuesOf_cons_of_ne (by omega)] at hpaths
        rw [DocumentView.field, strOf_text, ok_bind]
        exact (ih hpaths hmore _).trans (by rw [getLastD_cons])
      rw [valuesOf_cons_of_ne hone] at hpaths
      rw [valuesOf_cons_of_ne hfive] at htexts
      have hother : DocumentView.field start (number, value) = .ok start := by
        rw [DocumentView.field.eq_def]
        split <;> simp_all
      rw [hother, ok_bind, ih hpaths htexts]

theorem foldlM_relationship {targets : List Str} {flags : List ℕ}
    (htargets : valuesOf 1 all = targets.map fun text => .bytes (Text.bytes text))
    (hflags : valuesOf 3 all = flags.map .varint) (target : Str) (flag : ℕ) :
    all.foldlM relationshipField (target, decide (flag ≠ 0)) =
      .ok (targets.getLastD target, decide (flags.getLastD flag ≠ 0)) := by
  induction all generalizing targets flags target flag with
  | nil =>
      obtain rfl := map_eq_nil_iff.mp htargets.symm
      obtain rfl := map_eq_nil_iff.mp hflags.symm
      rfl
  | cons first rest ih =>
      obtain ⟨number, value⟩ := first
      rw [foldlM_cons]
      by_cases hone : number = 1
      · subst hone
        obtain ⟨text, more, rfl, rfl, hmore⟩ := valuesOf_cons_eq_map htargets
        rw [valuesOf_cons_of_ne (by omega)] at hflags
        rw [relationshipField, strOf_text, ok_bind]
        exact (ih hmore hflags _ _).trans (by rw [getLastD_cons])
      by_cases hthree : number = 3
      · subst hthree
        obtain ⟨found, more, rfl, rfl, hmore⟩ := valuesOf_cons_eq_map hflags
        rw [valuesOf_cons_of_ne (by omega)] at htargets
        rw [relationshipField, varintOf, ok_bind]
        exact (ih htargets hmore _ _).trans (by rw [getLastD_cons])
      rw [valuesOf_cons_of_ne hone] at htargets
      rw [valuesOf_cons_of_ne hthree] at hflags
      have hother : relationshipField (target, decide (flag ≠ 0)) (number, value) =
          .ok (target, decide (flag ≠ 0)) := by
        rw [relationshipField.eq_def]
        split <;> simp_all
      rw [hother, ok_bind, ih htargets hflags]

theorem foldlM_information {symbols : List Str} {kinds : List ℕ}
    (hsymbols : valuesOf 1 all = symbols.map fun text => .bytes (Text.bytes text))
    (hrelationships : ∀ value ∈ valuesOf 4 all, ∃ bytes found,
      value = .bytes bytes ∧ relationship bytes = .ok found)
    (hkinds : valuesOf 5 all = kinds.map .varint) (start : InformationView) :
    all.foldlM InformationView.field start =
      .ok ⟨symbols.getLastD start.symbol, kinds.getLastD start.kind, start.body⟩ := by
  induction all generalizing symbols kinds start with
  | nil =>
      obtain rfl := map_eq_nil_iff.mp hsymbols.symm
      obtain rfl := map_eq_nil_iff.mp hkinds.symm
      rfl
  | cons first rest ih =>
      obtain ⟨number, value⟩ := first
      rw [foldlM_cons]
      by_cases hone : number = 1
      · subst hone
        obtain ⟨text, more, rfl, rfl, hmore⟩ := valuesOf_cons_eq_map hsymbols
        rw [valuesOf_cons_of_ne (by omega)] at hrelationships hkinds
        rw [InformationView.field, strOf_text, ok_bind]
        exact (ih hmore hrelationships hkinds _).trans (by rw [getLastD_cons])
      by_cases hfour : number = 4
      · subst hfour
        rw [valuesOf_cons_self] at hrelationships
        obtain ⟨⟨bytes, found, rfl, hfound⟩, hmore⟩ := forall_mem_cons.mp hrelationships
        rw [valuesOf_cons_of_ne (by omega)] at hsymbols hkinds
        rw [InformationView.field, bytesOf, ok_bind, hfound, ok_bind]
        exact ih hsymbols hmore hkinds _
      by_cases hfive : number = 5
      · subst hfive
        obtain ⟨kind, more, rfl, rfl, hmore⟩ := valuesOf_cons_eq_map hkinds
        rw [valuesOf_cons_of_ne (by omega)] at hsymbols hrelationships
        rw [InformationView.field, varintOf, ok_bind]
        exact (ih hsymbols hrelationships hmore _).trans (by rw [getLastD_cons])
      rw [valuesOf_cons_of_ne hone] at hsymbols
      rw [valuesOf_cons_of_ne hfour] at hrelationships
      rw [valuesOf_cons_of_ne hfive] at hkinds
      have hother : InformationView.field start (number, value) = .ok start := by
        rw [InformationView.field.eq_def]
        split <;> simp_all
      rw [hother, ok_bind, ih hsymbols hrelationships hkinds]

def numbersOf (number : ℕ) (all : List Field) : List ℕ :=
  (valuesOf number all).filterMap fun value => (varintOf value).toOption

theorem numbersOf_of_valuesOf {number : ℕ} {values : List ℕ}
    (h : valuesOf number all = values.map .varint) : numbersOf number all = values := by
  rw [numbersOf, h, filterMap_map]
  exact filterMap_some

theorem numbersOf_cons_self (number value : ℕ) :
    numbersOf number ((number, .varint value) :: all) = value :: numbersOf number all := by
  rw [numbersOf, valuesOf_cons_self]
  rfl

theorem numbersOf_cons_of_ne {number other : ℕ} (h : other ≠ number) (value : Value) :
    numbersOf number ((other, value) :: all) = numbersOf number all := by
  rw [numbersOf, valuesOf_cons_of_ne h, numbersOf]

/-- Each wanted number ends as the last that was written, and otherwise as it was. -/
theorem foldlM_wanted {wanted : List ℕ} (hnodup : wanted.Nodup)
    (hvalues : ∀ number ∈ wanted, ∀ value ∈ valuesOf number all, ∃ found, value = .varint found)
    (start : List ℕ) (hlength : start.length = wanted.length) :
    all.foldlM (wantedField wanted) start =
      .ok (List.zipWith (fun number first => (numbersOf number all).getLastD first)
        wanted start) := by
  induction all generalizing start with
  | nil =>
      have hsame : List.zipWith (fun _ first => first) wanted start = start := by
        apply ext_getElem
        · rw [length_zipWith, hlength, Nat.min_self]
        · intro index _ _
          rw [getElem_zipWith]
      exact congrArg Except.ok hsame.symm
  | cons first rest ih =>
      obtain ⟨number, value⟩ := first
      have hrest : ∀ number ∈ wanted, ∀ value ∈ valuesOf number rest,
          ∃ found, value = .varint found := by
        intro other hother found hfound
        refine hvalues other hother found ?_
        rw [mem_valuesOf] at hfound ⊢
        exact mem_cons_of_mem _ hfound
      rw [foldlM_cons, wantedField]
      cases hslot : wanted.idxOf? number with
      | none =>
          have hnot : number ∉ wanted := idxOf?_eq_none_iff.mp hslot
          rw [ok_bind, ih hrest start hlength]
          congr 1
          apply ext_getElem
          · rw [length_zipWith, length_zipWith]
          · intro index hindex _
            have hwithin : index < wanted.length :=
              (length_zipWith ▸ hindex).trans_le (Nat.min_le_left _ _)
            have hne : number ≠ wanted[index] := fun h => hnot (h ▸ getElem_mem _)
            rw [getElem_zipWith, getElem_zipWith, numbersOf_cons_of_ne hne]
      | some slot =>
          obtain ⟨hbound, hnumber, _⟩ := idxOf?_eq_some_iff.mp hslot
          have hmem : number ∈ wanted := hnumber ▸ getElem_mem _
          obtain ⟨found, rfl⟩ := hvalues number hmem value
            (by rw [valuesOf_cons_self]; exact mem_cons_self)
          dsimp only
          rw [varintOf, ok_bind]
          refine (ih hrest (start.set slot found) (by rw [length_set, hlength])).trans ?_
          congr 1
          apply ext_getElem
          · rw [length_zipWith, length_zipWith, length_set]
          · intro index hindex _
            have hwithin : index < wanted.length :=
              (length_zipWith ▸ hindex).trans_le (Nat.min_le_left _ _)
            rw [getElem_zipWith, getElem_zipWith, getElem_set]
            split_ifs with hsame
            · subst hsame
              rw [hnumber, numbersOf_cons_self, getLastD_cons]
            · have hne : number ≠ wanted[index] := by
                intro h
                rw [← hnumber] at h
                exact hsame ((hnodup.getElem_inj_iff).mp h)
              rw [numbersOf_cons_of_ne hne]

/-- The coordinates of a typed range are read back. -/
theorem messageVarints_encoded {values : List ℕ} {bytes : List UInt8}
    (h : EncodesCoordinates values bytes) :
    messageVarints bytes (List.range' 1 values.length) = .ok values := by
  obtain ⟨all, hall, hvalues⟩ := h
  have hnumber : ∀ index value, values[index]? = some value →
      ∃ found : List ℕ, valuesOf (index + 1) all = found.map .varint ∧
        found.getLastD 0 = value := hvalues
  rw [messageVarints, eachField_encoded hall, foldlM_wanted nodup_range' ?_ _
    (length_map _)]
  · congr 1
    apply ext_getElem
    · rw [length_zipWith, length_map, Nat.min_self, length_range']
    · intro index _ hindex
      obtain ⟨found, hfound, hlast⟩ := hnumber index values[index] (getElem?_eq_getElem hindex)
      rw [getElem_zipWith, getElem_map, getElem_range', Nat.one_mul, Nat.add_comm,
        numbersOf_of_valuesOf hfound, hlast]
  · intro number hmem value hvalue
    obtain ⟨index, hindex, rfl⟩ := mem_range'.mp hmem
    obtain ⟨found, hfound, _⟩ := hnumber index values[index] (getElem?_eq_getElem hindex)
    rw [Nat.one_mul, Nat.add_comm, hfound] at hvalue
    obtain ⟨one, _, rfl⟩ := mem_map.mp hvalue
    exact ⟨one, rfl⟩

/-- Packed coordinates are read back, as long as they are four at most. -/
theorem pushPacked_encoded {values : List ℕ} {enc : List UInt8} (h : EncodesVarints values enc)
    {reader : Reader} {fuel : ℕ} (hfuel : enc.length ≤ fuel)
    (hwithin : reader.at_ ≤ reader.bytes.length) (hdrop : reader.bytes.drop reader.at_ = enc)
    {range : List ℕ} (hroom : range.length + values.length ≤ 4) :
    pushPacked fuel reader range = .ok (range ++ values) := by
  induction h generalizing reader fuel range with
  | nil =>
      have hlength := congrArg List.length hdrop
      rw [length_drop, length_nil] at hlength
      have hend : ¬ reader.at_ < reader.bytes.length := by omega
      rw [append_nil]
      cases fuel with
      | zero | succ fuel => rw [pushPacked, if_neg hend]
  | @cons value values bytes rest hvalue hrest ih =>
      have hpositive : 0 < bytes.length := length_pos_iff.mpr hvalue.1.ne_nil
      have hlength := congrArg List.length hdrop
      rw [length_drop, length_append] at hlength
      rw [length_append] at hfuel
      rw [length_cons] at hroom
      obtain ⟨fuel, rfl⟩ : ∃ less, fuel = less + 1 := ⟨fuel - 1, by omega⟩
      have hread := Reader.varint_complete hvalue hdrop
      rw [pushPacked, if_pos (by omega), hread, ok_bind]
      dsimp only
      rw [push, if_pos (by omega), ok_bind,
        @ih { reader with at_ := reader.at_ + bytes.length } fuel (by omega)
          (Reader.varint_advances hread).within (Reader.drop_of_append hdrop) (range ++ [value])
          (by rw [length_append, length_singleton]; omega),
        append_assoc, singleton_append]

/-- A field of coordinates adds what it holds. -/
theorem field_coordinates {value : Value} {part : List ℕ} (h : EncodesNumbers value part)
    (state : OccurrenceState) (hroom : state.range.length + part.length ≤ 4) :
    state.field (1, value) = .ok { state with range := state.range ++ part } := by
  cases h with
  | single value =>
      rw [OccurrenceState.field, push, if_pos (by rw [length_singleton] at hroom; omega)]
      rfl
  | packed hpacked =>
      rw [OccurrenceState.field, pushPacked_encoded hpacked (Nat.le_refl _) (Nat.zero_le _) rfl
        hroom]
      rfl

/-- The typed range that a field holds, if it is one. -/
def typedRange : Field → Option (Except Fault Coordinates)
  | (8, value) => some do singleLine (← messageVarints (← bytesOf value) [1, 2, 3])
  | (9, value) => some do multiLine (← messageVarints (← bytesOf value) [1, 2, 3, 4])
  | _ => none

@[simp] theorem typedRange_isSome (number : ℕ) (value : Value) :
    (typedRange (number, value)).isSome = (number == 8 || number == 9) := by
  rw [typedRange.eq_def]
  split <;> simp_all

theorem field_occurrence_of_ne {number : ℕ} (hone : number ≠ 1) (htwo : number ≠ 2)
    (hthree : number ≠ 3) (height : number ≠ 8) (hnine : number ≠ 9) (state : OccurrenceState)
    (value : Value) : state.field (number, value) = .ok state := by
  rw [OccurrenceState.field.eq_def]
  split <;> simp_all

/-- An occurrence is read into its symbol, its roles, its coordinates and its typed range. -/
theorem foldlM_occurrence {symbols : List Str} {roles : List ℕ} {parts : List (List ℕ)}
    (typed : Coordinates) (hrange : List.Forall₂ EncodesNumbers (valuesOf 1 all) parts)
    (hsymbols : valuesOf 2 all = symbols.map fun text => .bytes (Text.bytes text))
    (hroles : valuesOf 3 all = roles.map .varint)
    (htyped : ∀ field ∈ all, ∀ found, typedRange field = some found → found = .ok typed)
    (start : OccurrenceState) (hroom : start.range.length + parts.flatten.length ≤ 4) :
    all.foldlM OccurrenceState.field start =
      .ok ⟨symbols.getLastD start.symbol, roles.getLastD start.roles, start.range ++ parts.flatten,
        if all.any fun field => (typedRange field).isSome then some typed else start.typed⟩ := by
  induction all generalizing symbols roles parts start with
  | nil =>
      obtain rfl := map_eq_nil_iff.mp hsymbols.symm
      obtain rfl := map_eq_nil_iff.mp hroles.symm
      obtain rfl := forall₂_nil_left_iff.mp hrange
      rw [flatten_nil, append_nil]
      rfl
  | cons first rest ih =>
      obtain ⟨number, value⟩ := first
      obtain ⟨hfirst, hmore⟩ := forall_mem_cons.mp htyped
      rw [foldlM_cons]
      rw [any_cons, typedRange_isSome]
      by_cases hone : number = 1
      · subst hone
        rw [valuesOf_cons_self] at hrange
        obtain ⟨part, others, hpart, hothers, rfl⟩ := forall₂_cons_left_iff.mp hrange
        rw [valuesOf_cons_of_ne (by omega)] at hsymbols hroles
        rw [flatten_cons, length_append] at hroom
        rw [field_coordinates hpart start (by omega), ok_bind,
          ih hothers hsymbols hroles hmore _ (by rw [length_append]; omega)]
        rw [flatten_cons, append_assoc]
        rfl
      by_cases htwo : number = 2
      · subst htwo
        obtain ⟨text, others, rfl, rfl, hothers⟩ := valuesOf_cons_eq_map hsymbols
        rw [valuesOf_cons_of_ne (by omega)] at hrange hroles
        rw [OccurrenceState.field, strOf_text, ok_bind]
        refine (ih hrange hothers hroles hmore { start with symbol := text } hroom).trans ?_
        rw [getLastD_cons]
        rfl
      by_cases hthree : number = 3
      · subst hthree
        obtain ⟨role, others, rfl, rfl, hothers⟩ := valuesOf_cons_eq_map hroles
        rw [valuesOf_cons_of_ne (by omega)] at hrange hsymbols
        rw [OccurrenceState.field, varintOf, ok_bind]
        refine (ih hrange hsymbols hothers hmore { start with roles := role } hroom).trans ?_
        rw [getLastD_cons]
        rfl
      rw [valuesOf_cons_of_ne hone] at hrange
      rw [valuesOf_cons_of_ne htwo] at hsymbols
      rw [valuesOf_cons_of_ne hthree] at hroles
      by_cases htyped : number = 8 ∨ number = 9
      · obtain rfl | rfl := htyped
        all_goals
          obtain ⟨bytes, hbytes, hvalues⟩ := bind_eq_ok_iff.mp (hfirst _ rfl)
          obtain ⟨found, hfound, hline⟩ := bind_eq_ok_iff.mp hvalues
          rw [OccurrenceState.field, hbytes, ok_bind, hfound, ok_bind, hline, ok_bind]
          refine (ih hrange hsymbols hroles hmore { start with typed := some typed } hroom).trans ?_
          rw [ite_self]
          rfl
      obtain ⟨height, hnine⟩ := not_or.mp htyped
      have hother := field_occurrence_of_ne hone htwo hthree height hnine start value
      have huntyped : (number == 8 || number == 9) = false := by simp [height, hnine]
      rw [hother, ok_bind, ih hrange hsymbols hroles hmore _ hroom, huntyped, Bool.false_or]

end Written

end Bran.Scip
