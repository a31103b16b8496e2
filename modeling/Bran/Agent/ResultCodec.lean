import Bran.Agent.Receipt
import Bran.Library.Decoding

/-!
# The stored form of a result

`InlineResult::decode_canonical` of `agent/receipt.rs`.  Every reader of the format is exact for the
writer beside it, so that the decoder accepts what `encode_canonical` writes and nothing else.
-/

namespace Bran.Agent

open Text Validation Words Decoding List

/-! ## What the source computes -/

def refuseBytes {α : Type} : Checked ReceiptError α := .error (.refused .rejected)

/-- A value that is there, or the refusal. -/
def orRefuse {α : Type} : Option α → Checked ReceiptError α
  | some value => .ok value
  | none => refuseBytes

/-- A constructor called by the decoder. -/
def constructed {α ε : Type} (outcome : Except ε α) : Checked ReceiptError α :=
  outcome.mapError fun _ => .refused .rejected

/-- `bytes.get(..count)`. -/
def getTo (bytes : List UInt8) (count : ℕ) : Option (List UInt8) :=
  if count ≤ bytes.length then some (bytes.take count) else none

/-- `&bytes[count..]`, which stops the program where the count is too large. -/
def sliceFrom (bytes : List UInt8) (count : ℕ) : Checked ReceiptError (List UInt8) :=
  if count ≤ bytes.length then .ok (bytes.drop count) else .error .panicked

/-- `u64::from_be_bytes`. -/
def fromBeBytes (raw : List UInt8) : ℕ := fromLittleEndian raw.reverse

def decodeU64 (encoded : List UInt8) : Checked ReceiptError (ℕ × List UInt8) := do
  let raw ← orRefuse (getTo encoded 8)
  let encoded ← sliceFrom encoded 8
  -- `raw.try_into()`
  failIf (raw.length ≠ 8) (.refused .rejected)
  .ok (fromBeBytes raw, encoded)

/-- `decode_field`; a `u64` is a `usize`. -/
def decodeField (encoded : List UInt8) : Checked ReceiptError (List UInt8 × List UInt8) := do
  let (length, encoded) ← decodeU64 encoded
  let field ← orRefuse (getTo encoded length)
  let encoded ← sliceFrom encoded length
  .ok (field, encoded)

/-- `String::from_utf8`. -/
def decodeUtf8 (field : List UInt8) : Checked ReceiptError Str := orRefuse (fromUtf8 field)

def decodeText (remaining : List UInt8) : Checked ReceiptError (Str × List UInt8) := do
  let (field, remaining) ← decodeField remaining
  let text ← decodeUtf8 field
  .ok (text, remaining)

/-- The byte of a claim that says whether it is material. -/
def decodeMaterial : List UInt8 → Checked ReceiptError (Bool × List UInt8)
  | [] => refuseBytes
  | material :: rest =>
      if material = 0 then .ok (false, rest)
      else if material = 1 then .ok (true, rest)
      else refuseBytes

/-- One turn of the loop over the claims. -/
def decodeClaim (remaining : List UInt8) : Checked ReceiptError (ProviderClaim × List UInt8) := do
  let (id, remaining) ← decodeText remaining
  let (text, remaining) ← decodeText remaining
  let (material, remaining) ← decodeMaterial remaining
  let (locator, remaining) ← decodeText remaining
  let (contentDigest, remaining) ← decodeText remaining
  let (support, remaining) ← decodeText remaining
  let claim ← constructed (ProviderClaim.new id text material locator contentDigest support)
  .ok (claim, remaining)

namespace InlineResult

def mark (version : ℕ) : List UInt8 :=
  bytes (if version = 1 then "bran-agent-result-v1".toList else "bran-agent-result-v2".toList)

/-- The version of a stored result, and what follows its mark. -/
def decodeVersion (encoded : List UInt8) : Checked ReceiptError (ℕ × List UInt8) :=
  match List.isPrefixOf? (mark 2) encoded with
  | some remaining => .ok (2, remaining)
  | none =>
      match List.isPrefixOf? (mark 1) encoded with
      | some remaining => .ok (1, remaining)
      | none => refuseBytes

/-- The end of the first version: nothing follows the citations. -/
def decodeFirst (answer : Str) (citations : List Str) (remaining : List UInt8) :
    Checked ReceiptError InlineResult := do
  failIf (remaining ≠ []) (.refused .rejected)
  constructed (new answer citations)

/-- The end of the second version: claims, and nothing after them. -/
def decodeSecond (answer : Str) (citations : List Str) (remaining : List UInt8) :
    Checked ReceiptError InlineResult := do
  let (claimCount, remaining) ← decodeU64 remaining
  failIf (claimCount = 0 ∨ claimCount > 128) (.refused .rejected)
  let (claims, remaining) ← repeated decodeClaim claimCount remaining
  failIf (remaining ≠ []) (.refused .rejected)
  constructed (withClaims answer citations claims)

def decodeCanonical (encoded : List UInt8) : Checked ReceiptError InlineResult := do
  let (version, remaining) ← decodeVersion encoded
  let (answer, remaining) ← decodeField remaining
  let (citationCount, remaining) ← decodeU64 remaining
  failIf (citationCount > 128) (.refused .rejected)
  let (citations, remaining) ← repeated decodeField citationCount remaining
  let answer ← decodeUtf8 answer
  let citations ← citations.mapM decodeUtf8
  if version = 1 then decodeFirst answer citations remaining
  else decodeSecond answer citations remaining

end InlineResult

/-! ## Numbers and fields -/

theorem constructed_eq_ok_iff {α ε : Type} {outcome : Except ε α} {value : α} :
    constructed outcome = .ok value ↔ outcome = .ok value := mapError_eq_ok_iff

theorem orRefuse_eq_ok_iff {α : Type} {found : Option α} {value : α} :
    orRefuse found = .ok value ↔ found = some value := by
  cases found with
  | none => exact ⟨fun h => (nomatch h), fun h => (nomatch h)⟩
  | some other => rw [orRefuse, Except.ok.injEq, Option.some.injEq]

theorem getTo_eq_some_iff {input front : List UInt8} {count : ℕ} :
    getTo input count = some front ↔ count ≤ input.length ∧ input.take count = front := by
  unfold getTo
  split_ifs with h
  · rw [Option.some.injEq]
    exact ⟨fun heq => ⟨h, heq⟩, fun heq => heq.2⟩
  · exact ⟨fun heq => (nomatch heq), fun heq => absurd heq.1 h⟩

/-- Reading a number of bytes and stepping over them. -/
theorem getTo_sliceFrom {β : Type} {input : List UInt8} {count : ℕ}
    {next : List UInt8 → List UInt8 → Checked ReceiptError β} {result : β} :
    (do let front ← orRefuse (getTo input count)
        let rest ← sliceFrom input count
        next front rest) = .ok result ↔
      ∃ front rest, (front.length = count ∧ input = front ++ rest) ∧
        next front rest = .ok result := by
  constructor
  · intro h
    obtain ⟨front, hfront, h⟩ := bind_eq_ok_iff.mp h
    obtain ⟨hle, rfl⟩ := getTo_eq_some_iff.mp (orRefuse_eq_ok_iff.mp hfront)
    rw [sliceFrom, if_pos hle, ok_bind] at h
    exact ⟨_, _, ⟨length_take_of_le hle, (take_append_drop count input).symm⟩, h⟩
  · intro h
    obtain ⟨front, rest, ⟨rfl, rfl⟩, h⟩ := h
    have hle : front.length ≤ (front ++ rest).length := by simp
    rw [getTo, if_pos hle, orRefuse, ok_bind, sliceFrom, if_pos hle, ok_bind, take_left,
      drop_left]
    exact h

theorem beBytes_eq (n : ℕ) : beBytes n = (toLittleEndian 8 n).reverse := by
  have hindices : (List.range 8).reverse = [7, 6, 5, 4, 3, 2, 1, 0] := rfl
  simp [beBytes, hindices, toLittleEndian, Nat.div_div_eq_div_mul]

@[simp] theorem length_beBytes (n : ℕ) : (beBytes n).length = 8 := by
  rw [beBytes_eq, length_reverse, length_toLittleEndian]

theorem fromBeBytes_beBytes {n : ℕ} (h : n < 2 ^ 64) : fromBeBytes (beBytes n) = n := by
  rw [fromBeBytes, beBytes_eq, reverse_reverse]
  exact fromLittleEndian_toLittleEndian (by omega)

theorem beBytes_fromBeBytes {raw : List UInt8} (h : raw.length = 8) :
    beBytes (fromBeBytes raw) = raw := by
  have hlength : raw.reverse.length = 8 := by rw [length_reverse, h]
  rw [beBytes_eq, fromBeBytes, ← hlength, toLittleEndian_fromLittleEndian, reverse_reverse]

theorem fromBeBytes_lt {raw : List UInt8} (h : raw.length = 8) : fromBeBytes raw < 2 ^ 64 := by
  have hlt := fromLittleEndian_lt raw.reverse
  rw [length_reverse, h] at hlt
  exact lt_of_lt_of_le hlt (by decide)

theorem decodeU64_exact : Exact (fun n => n < 2 ^ 64) beBytes decodeU64 := by
  intro encoded n rest
  rw [decodeU64, getTo_sliceFrom]
  constructor
  · intro h
    obtain ⟨raw, after, ⟨hlength, rfl⟩, h⟩ := h
    rw [failIf_bind_eq (not_not_intro hlength), Except.ok.injEq, Prod.mk.injEq] at h
    obtain ⟨rfl, rfl⟩ := h
    exact ⟨fromBeBytes_lt hlength, by rw [beBytes_fromBeBytes hlength]⟩
  · intro h
    obtain ⟨hlt, rfl⟩ := h
    refine ⟨beBytes n, rest, ⟨length_beBytes n, rfl⟩, ?_⟩
    rw [failIf_bind_eq (not_not_intro (length_beBytes n)), fromBeBytes_beBytes hlt]

theorem decodeField_exact :
    Exact (fun field => field.length < 2 ^ 64) encodeField decodeField := by
  intro encoded field rest
  rw [decodeField, decodeU64_exact.bind_eq_ok_iff]
  constructor
  · intro h
    obtain ⟨length, middle, ⟨hlt, rfl⟩, h⟩ := h
    dsimp only at h
    rw [getTo_sliceFrom] at h
    obtain ⟨front, after, ⟨rfl, rfl⟩, h⟩ := h
    cases h
    exact ⟨hlt, by rw [encodeField, append_assoc]⟩
  · intro h
    obtain ⟨hlt, rfl⟩ := h
    refine ⟨field.length, field ++ rest, ⟨hlt, by rw [encodeField, append_assoc]⟩, ?_⟩
    exact getTo_sliceFrom.mpr ⟨field, rest, ⟨rfl, rfl⟩, rfl⟩

theorem decodeUtf8_eq_ok_iff {field : List UInt8} {text : Str} :
    decodeUtf8 field = .ok text ↔ bytes text = field := by
  rw [decodeUtf8, orRefuse_eq_ok_iff, fromUtf8_eq_some_iff]

theorem decodeText_exact :
    Exact (fun text => byteLen text < 2 ^ 64) (fun text => encodeField (bytes text))
      decodeText := by
  intro remaining text rest
  rw [decodeText, decodeField_exact.bind_eq_ok_iff]
  constructor
  · intro h
    obtain ⟨field, middle, ⟨hlt, rfl⟩, h⟩ := h
    obtain ⟨decoded, hdecoded, h⟩ := bind_eq_ok_iff.mp h
    cases h
    obtain rfl := decodeUtf8_eq_ok_iff.mp hdecoded
    rw [length_bytes] at hlt
    exact ⟨hlt, rfl⟩
  · intro h
    obtain ⟨hlt, rfl⟩ := h
    rw [← length_bytes] at hlt
    refine ⟨bytes text, rest, ⟨hlt, rfl⟩, ?_⟩
    exact bind_eq_ok_iff.mpr ⟨text, decodeUtf8_eq_ok_iff.mpr rfl, rfl⟩

theorem decodeMaterial_exact :
    Exact (fun _ => True) (fun material => [if material = true then (1 : UInt8) else 0])
      decodeMaterial := by
  intro remaining material rest
  rw [true_and]
  cases remaining with
  | nil => exact ⟨fun h => (nomatch h), fun h => (nomatch h)⟩
  | cons byte tail =>
      rw [decodeMaterial]
      by_cases hzero : byte = 0
      · subst hzero
        cases material <;> simp
      · rw [if_neg hzero]
        by_cases hone : byte = 1
        · subst hone
          cases material <;> simp
        · rw [if_neg hone]
          cases material <;> simp [hzero, hone, refuseBytes]

/-! ## Claims -/

/-- The texts of a claim are short enough for their lengths to be words. -/
theorem ProviderClaim.texts_lt (claim : ProviderClaim) :
    byteLen claim.id < 2 ^ 64 ∧ byteLen claim.text < 2 ^ 64 ∧ byteLen claim.locator < 2 ^ 64 ∧
      byteLen claim.contentDigest < 2 ^ 64 ∧ byteLen claim.support < 2 ^ 64 := by
  obtain ⟨hid, -, htext, -, hlocator, hdigest, -, hsupport⟩ := claim.valid
  rw [isValidName, validNameOf, Bool.and_eq_true, decide_eq_true_iff] at hid
  rw [validSha256, isDigest, Bool.and_eq_true, decide_eq_true_iff] at hdigest
  omega

theorem decodeClaim_exact : Exact (fun _ => True) encodeClaim decodeClaim := by
  intro remaining claim rest
  rw [true_and]
  simp only [decodeClaim, decodeText_exact.bind_eq_ok_iff, decodeMaterial_exact.bind_eq_ok_iff,
    true_and]
  constructor
  · intro h
    obtain ⟨id, _, ⟨-, rfl⟩, text, _, ⟨-, rfl⟩, material, _, rfl, locator, _, ⟨-, rfl⟩,
      contentDigest, _, ⟨-, rfl⟩, support, _, ⟨-, rfl⟩, h⟩ := h
    obtain ⟨decoded, hdecoded, h⟩ := bind_eq_ok_iff.mp h
    cases h
    obtain ⟨rfl, rfl, rfl, rfl, rfl, rfl⟩ :=
      ProviderClaim.new_eq_ok_iff.mp (constructed_eq_ok_iff.mp hdecoded)
    simp only [encodeClaim, append_assoc]
  · intro h
    obtain ⟨hid, htext, hlocator, hdigest, hsupport⟩ := claim.texts_lt
    subst h
    refine ⟨claim.id, _, ⟨hid, by simp only [encodeClaim, append_assoc]⟩,
      claim.text, _, ⟨htext, rfl⟩, claim.material, _, rfl, claim.locator, _, ⟨hlocator, rfl⟩,
      claim.contentDigest, _, ⟨hdigest, rfl⟩, claim.support, rest, ⟨hsupport, rfl⟩, ?_⟩
    exact bind_eq_ok_iff.mpr ⟨claim, constructed_eq_ok_iff.mpr
      (ProviderClaim.new_eq_ok_iff.mpr ⟨rfl, rfl, rfl, rfl, rfl, rfl⟩), rfl⟩

/-! ## Results -/

namespace InlineResult

def Constructible (result : InlineResult) : Prop :=
  ∃ answer citations claims, new answer citations = .ok result ∨
    withClaims answer citations claims = .ok result

theorem new_eq_withClaims (answer : Str) (citations : List Str) :
    new answer citations = withClaims answer citations [] := by
  rw [withClaims, new]
  simp only [bind_assoc, ok_bind]
  rfl

variable {result : InlineResult}

theorem constructible_iff : Constructible result ↔
    withClaims result.answer result.citations result.claims = .ok result := by
  constructor
  · intro h
    obtain ⟨answer, citations, claims, h⟩ := h
    rw [new_eq_withClaims] at h
    obtain h | h := h
    · obtain ⟨-, -, -, -, rfl⟩ := withClaims_eq_ok_iff.mp h
      exact h
    · obtain ⟨-, -, -, -, rfl⟩ := withClaims_eq_ok_iff.mp h
      exact h
  · intro h
    exact ⟨_, _, _, .inr h⟩

/-- The version that the encoder writes. -/
def version (result : InlineResult) : ℕ := if result.claims = [] then 1 else 2

theorem encodeCanonical_eq (result : InlineResult) : result.encodeCanonical =
    mark result.version ++ (encodeField (bytes result.answer) ++
      (beBytes result.citations.length ++
        ((result.citations.flatMap fun citation => encodeField (bytes citation)) ++
          if result.claims = [] then []
          else beBytes result.claims.length ++ result.claims.flatMap encodeClaim))) := by
  unfold encodeCanonical mark version
  by_cases h : result.claims = [] <;> simp [h]

theorem mark_append_ne (first second : List UInt8) : mark 1 ++ first ≠ mark 2 ++ second := by
  intro h
  have hmark := (List.append_inj h (by decide)).1
  exact absurd hmark (by decide)

theorem decodeVersion_exact :
    Exact (fun version => version = 1 ∨ version = 2) mark decodeVersion := by
  intro encoded version rest
  unfold decodeVersion
  cases hsecond : List.isPrefixOf? (mark 2) encoded with
  | some remaining =>
      obtain rfl := isPrefixOf?_eq_some_iff_append_eq.mp hsecond
      rw [Except.ok.injEq, Prod.mk.injEq]
      constructor
      · intro h
        obtain ⟨rfl, rfl⟩ := h
        exact ⟨.inr rfl, rfl⟩
      · intro h
        obtain ⟨rfl | rfl, h⟩ := h
        · exact absurd h.symm (mark_append_ne rest remaining)
        · exact ⟨rfl, append_cancel_left h⟩
  | none =>
      have hnotSecond : encoded ≠ mark 2 ++ rest := by
        intro h
        rw [isPrefixOf?_eq_some_iff_append_eq.mpr h.symm] at hsecond
        cases hsecond
      cases hfirst : List.isPrefixOf? (mark 1) encoded with
      | some remaining =>
          obtain rfl := isPrefixOf?_eq_some_iff_append_eq.mp hfirst
          dsimp only
          rw [Except.ok.injEq, Prod.mk.injEq]
          constructor
          · intro h
            obtain ⟨rfl, rfl⟩ := h
            exact ⟨.inl rfl, rfl⟩
          · intro h
            obtain ⟨rfl | rfl, h⟩ := h
            · exact ⟨rfl, append_cancel_left h⟩
            · exact absurd h hnotSecond
      | none =>
          constructor
          · intro h
            cases h
          · intro h
            obtain ⟨rfl | rfl, h⟩ := h
            · rw [isPrefixOf?_eq_some_iff_append_eq.mpr h.symm] at hfirst
              cases hfirst
            · exact absurd h hnotSecond

theorem mapM_decodeUtf8_eq_ok_iff {fields : List (List UInt8)} {texts : List Str} :
    fields.mapM decodeUtf8 = .ok texts ↔ fields = texts.map bytes := by
  have hone : (fun field text => decodeUtf8 field = .ok text) =
      fun field text => field = bytes text := by
    funext field text
    rw [decodeUtf8_eq_ok_iff]
    exact propext eq_comm
  calc fields.mapM decodeUtf8 = .ok texts
    _ ↔ List.Forall₂ (fun field text => field = bytes text) fields texts := by
        rw [mapM_eq_ok_iff, hone]
    _ ↔ List.Forall₂ (· = ·) fields (texts.map bytes) := forall₂_map_right_iff.symm
    _ ↔ fields = texts.map bytes := by rw [forall₂_eq_eq_eq]

theorem decodeFirst_eq_ok_iff {answer : Str} {citations : List Str} {remaining : List UInt8} :
    decodeFirst answer citations remaining = .ok result ↔
      remaining = [] ∧ new answer citations = .ok result := by
  rw [decodeFirst, check_bind_eq_ok_iff, failIf_eq_ok_iff, not_not, constructed_eq_ok_iff]

theorem decodeSecond_eq_ok_iff {answer : Str} {citations : List Str} {remaining : List UInt8} :
    decodeSecond answer citations remaining = .ok result ↔
      ∃ claims, claims ≠ [] ∧ remaining = beBytes claims.length ++ claims.flatMap encodeClaim ∧
        withClaims answer citations claims = .ok result := by
  rw [decodeSecond, decodeU64_exact.bind_eq_ok_iff]
  constructor
  · intro h
    obtain ⟨count, middle, ⟨-, rfl⟩, h⟩ := h
    rw [check_bind_eq_ok_iff, failIf_eq_ok_iff] at h
    obtain ⟨hcount, h⟩ := h
    rw [(decodeClaim_exact.repeated count).bind_eq_ok_iff] at h
    obtain ⟨claims, rest, ⟨⟨rfl, -⟩, rfl⟩, h⟩ := h
    rw [check_bind_eq_ok_iff, failIf_eq_ok_iff, not_not, constructed_eq_ok_iff] at h
    obtain ⟨rfl, hclaims⟩ := h
    refine ⟨claims, ?_, by rw [append_nil], hclaims⟩
    intro hnil
    exact hcount (.inl (by rw [hnil]; rfl))
  · intro h
    obtain ⟨claims, hne, rfl, hclaims⟩ := h
    have hle : claims.length ≤ 128 := (withClaims_eq_ok_iff.mp hclaims).2.2.2.1
    have hpos : 0 < claims.length := length_pos_iff.mpr hne
    refine ⟨claims.length, claims.flatMap encodeClaim, ⟨by omega, rfl⟩, ?_⟩
    rw [check_bind_eq_ok_iff, failIf_eq_ok_iff, (decodeClaim_exact.repeated _).bind_eq_ok_iff]
    refine ⟨by omega, claims, [], ⟨⟨rfl, fun _ _ => trivial⟩, (append_nil _).symm⟩, ?_⟩
    rw [check_bind_eq_ok_iff, failIf_eq_ok_iff, not_not, constructed_eq_ok_iff]
    exact ⟨rfl, hclaims⟩

/-- What stands in front of the claims. -/
theorem decodeCanonical_parts {encoded : List UInt8} :
    decodeCanonical encoded = .ok result ↔ ∃ version answer citations rest,
      (version = 1 ∨ version = 2) ∧ byteLen answer < 2 ^ 64 ∧ citations.length ≤ 128 ∧
        (∀ citation ∈ citations, byteLen citation < 2 ^ 64) ∧
        encoded = mark version ++ (encodeField (bytes answer) ++ (beBytes citations.length ++
          ((citations.flatMap fun citation => encodeField (bytes citation)) ++ rest))) ∧
        (if version = 1 then decodeFirst answer citations rest
          else decodeSecond answer citations rest) = .ok result := by
  rw [decodeCanonical, decodeVersion_exact.bind_eq_ok_iff]
  constructor
  · intro h
    obtain ⟨version, _, ⟨hversion, rfl⟩, h⟩ := h
    rw [decodeField_exact.bind_eq_ok_iff] at h
    obtain ⟨field, _, ⟨hfield, rfl⟩, h⟩ := h
    rw [decodeU64_exact.bind_eq_ok_iff] at h
    obtain ⟨count, _, ⟨-, rfl⟩, h⟩ := h
    rw [check_bind_eq_ok_iff, failIf_eq_ok_iff, (decodeField_exact.repeated count).bind_eq_ok_iff]
      at h
    obtain ⟨hcount, fields, rest, ⟨⟨rfl, hfields⟩, rfl⟩, h⟩ := h
    dsimp only at h
    obtain ⟨answer, hanswer, htexts⟩ := bind_eq_ok_iff.mp h
    obtain ⟨citations, hcitations, hend⟩ := bind_eq_ok_iff.mp htexts
    obtain rfl := decodeUtf8_eq_ok_iff.mp hanswer
    obtain rfl := mapM_decodeUtf8_eq_ok_iff.mp hcitations
    rw [length_bytes] at hfield
    rw [length_map] at hcount ⊢
    refine ⟨version, answer, citations, rest, hversion, hfield, not_lt.mp hcount, ?_, ?_, hend⟩
    · intro citation hcitation
      rw [← length_bytes]
      exact hfields _ (mem_map_of_mem hcitation)
    · rw [flatMap_map]
  · intro h
    obtain ⟨version, answer, citations, rest, hversion, hanswer, hcount, hcitations, rfl, h⟩ := h
    refine ⟨version, _, ⟨hversion, rfl⟩, ?_⟩
    rw [decodeField_exact.bind_eq_ok_iff]
    refine ⟨bytes answer, _, ⟨by rwa [length_bytes], rfl⟩, ?_⟩
    rw [decodeU64_exact.bind_eq_ok_iff]
    refine ⟨citations.length, _, ⟨by omega, rfl⟩, ?_⟩
    rw [check_bind_eq_ok_iff, failIf_eq_ok_iff, (decodeField_exact.repeated _).bind_eq_ok_iff]
    refine ⟨by omega, citations.map bytes, rest, ⟨⟨length_map _, ?_⟩, ?_⟩, ?_⟩
    · intro field hfield
      obtain ⟨citation, hcitation, rfl⟩ := mem_map.mp hfield
      rw [length_bytes]
      exact hcitations citation hcitation
    · rw [flatMap_map]
    · dsimp only
      rw [decodeUtf8_eq_ok_iff.mpr rfl, ok_bind, mapM_decodeUtf8_eq_ok_iff.mpr rfl, ok_bind]
      exact h

/-- What the decoder accepts is what the encoder writes. -/
theorem decodeCanonical_eq_ok_iff {encoded : List UInt8} :
    decodeCanonical encoded = .ok result ↔
      Constructible result ∧ encoded = result.encodeCanonical := by
  rw [decodeCanonical_parts, constructible_iff]
  constructor
  · intro h
    obtain ⟨version, answer, citations, rest, hversion, -, -, -, rfl, h⟩ := h
    obtain rfl | rfl := hversion
    · rw [if_pos rfl, decodeFirst_eq_ok_iff, new_eq_withClaims] at h
      obtain ⟨rfl, hresult⟩ := h
      obtain ⟨-, -, -, -, rfl⟩ := withClaims_eq_ok_iff.mp hresult
      exact ⟨hresult, by rw [encodeCanonical_eq]; rfl⟩
    · rw [if_neg (by decide), decodeSecond_eq_ok_iff] at h
      obtain ⟨claims, hne, rfl, hresult⟩ := h
      obtain ⟨-, -, -, -, rfl⟩ := withClaims_eq_ok_iff.mp hresult
      refine ⟨hresult, ?_⟩
      rw [encodeCanonical_eq, version, if_neg hne, if_neg hne]
  · intro h
    obtain ⟨hresult, rfl⟩ := h
    obtain ⟨⟨-, hanswer⟩, hcount, hcitations, -, -⟩ := withClaims_eq_ok_iff.mp hresult
    refine ⟨result.version, result.answer, result.citations, _, ?_, by omega, hcount, ?_,
      encodeCanonical_eq result, ?_⟩
    · unfold version
      split_ifs
      · exact .inl rfl
      · exact .inr rfl
    · intro citation hcitation
      exact lt_of_le_of_lt (hcitations citation hcitation).2 (by decide)
    · unfold version
      by_cases hnone : result.claims = []
      · rw [if_pos hnone, if_pos rfl, if_pos hnone, decodeFirst_eq_ok_iff, new_eq_withClaims]
        rw [hnone] at hresult
        exact ⟨rfl, hresult⟩
      · rw [if_neg hnone, if_neg (by decide), if_neg hnone, decodeSecond_eq_ok_iff]
        exact ⟨result.claims, hnone, rfl, hresult⟩

/-! ## No index out of bounds -/

theorem safe_orRefuse {α : Type} (found : Option α) : Safe (orRefuse found) := by
  cases found with
  | none => exact safe_refused
  | some value => exact safe_ok

theorem safe_constructed {α ε : Type} (outcome : Except ε α) : Safe (constructed outcome) := by
  cases outcome with
  | error error => exact safe_refused
  | ok value => exact safe_ok

/-- Stepping over bytes that were there. -/
theorem safe_getTo_sliceFrom {β : Type} {input : List UInt8} {count : ℕ}
    {next : List UInt8 → List UInt8 → Checked ReceiptError β}
    (hnext : ∀ front rest, front.length = count → Safe (next front rest)) :
    Safe (do let front ← orRefuse (getTo input count)
             let rest ← sliceFrom input count
             next front rest) := by
  refine safe_bind (safe_orRefuse _) fun front hfront => ?_
  obtain ⟨hle, rfl⟩ := getTo_eq_some_iff.mp (orRefuse_eq_ok_iff.mp hfront)
  rw [sliceFrom, if_pos hle]
  exact hnext _ _ (length_take_of_le hle)

theorem safe_decodeU64 (encoded : List UInt8) : Safe (decodeU64 encoded) :=
  safe_getTo_sliceFrom fun _ _ _ => safe_failIf_bind fun _ => safe_ok

theorem safe_decodeField (encoded : List UInt8) : Safe (decodeField encoded) :=
  safe_bind (safe_decodeU64 encoded) fun _ _ => safe_getTo_sliceFrom fun _ _ _ => safe_ok

theorem safe_decodeText (remaining : List UInt8) : Safe (decodeText remaining) :=
  safe_bind (safe_decodeField remaining) fun _ _ =>
    safe_bind (safe_orRefuse _) fun _ _ => safe_ok

theorem safe_decodeMaterial (remaining : List UInt8) : Safe (decodeMaterial remaining) := by
  cases remaining with
  | nil => exact safe_refused
  | cons material rest =>
      rw [decodeMaterial]
      split_ifs
      · exact safe_ok
      · exact safe_ok
      · exact safe_refused

theorem safe_decodeClaim (remaining : List UInt8) : Safe (decodeClaim remaining) := by
  refine safe_bind (safe_decodeText _) fun _ _ => safe_bind (safe_decodeText _) fun _ _ => ?_
  refine safe_bind (safe_decodeMaterial _) fun _ _ => safe_bind (safe_decodeText _) fun _ _ => ?_
  refine safe_bind (safe_decodeText _) fun _ _ => safe_bind (safe_decodeText _) fun _ _ => ?_
  exact safe_bind (safe_constructed _) fun _ _ => safe_ok

theorem safe_decodeVersion (encoded : List UInt8) : Safe (decodeVersion encoded) := by
  unfold decodeVersion
  split
  · exact safe_ok
  · split
    · exact safe_ok
    · exact safe_refused

theorem safe_mapM_decodeUtf8 (fields : List (List UInt8)) : Safe (fields.mapM decodeUtf8) := by
  induction fields with
  | nil => exact safe_ok
  | cons field rest ih =>
      rw [mapM_cons]
      exact safe_bind (safe_orRefuse _) fun _ _ => safe_bind ih fun _ _ => safe_ok

theorem safe_decodeFirst (answer : Str) (citations : List Str) (remaining : List UInt8) :
    Safe (decodeFirst answer citations remaining) :=
  safe_failIf_bind fun _ => safe_constructed _

theorem safe_decodeSecond (answer : Str) (citations : List Str) (remaining : List UInt8) :
    Safe (decodeSecond answer citations remaining) := by
  refine safe_bind (safe_decodeU64 _) fun _ _ => safe_failIf_bind fun _ => ?_
  refine safe_bind (safe_repeated safe_decodeClaim _ _) fun _ _ => ?_
  exact safe_failIf_bind fun _ => safe_constructed _

theorem safe_decodeCanonical (encoded : List UInt8) : Safe (decodeCanonical encoded) := by
  refine safe_bind (safe_decodeVersion _) fun _ _ => safe_bind (safe_decodeField _) fun _ _ => ?_
  refine safe_bind (safe_decodeU64 _) fun _ _ => safe_failIf_bind fun _ => ?_
  refine safe_bind (safe_repeated safe_decodeField _ _) fun _ _ => ?_
  refine safe_bind (safe_orRefuse _) fun _ _ => safe_bind (safe_mapM_decodeUtf8 _) fun _ _ => ?_
  split_ifs
  · exact safe_decodeFirst _ _ _
  · exact safe_decodeSecond _ _ _

/-! ## The codec -/

/-- The codec is canonical: results that a constructor returns are read back as they were, every
accepted byte string is the encoding of what is read, and no byte string is read out of bounds. -/
theorem codec_canonical :
    (∀ result, Constructible result → decodeCanonical result.encodeCanonical = .ok result) ∧
      (∀ encoded result, decodeCanonical encoded = .ok result →
        result.encodeCanonical = encoded) ∧
      (∀ first second, Constructible first → Constructible second →
        first.encodeCanonical = second.encodeCanonical → first = second) ∧
      (∀ encoded encoded' result, decodeCanonical encoded = .ok result →
        decodeCanonical encoded' = .ok result → encoded = encoded') ∧
      ∀ encoded, Safe (decodeCanonical encoded) := by
  have hround : ∀ result, Constructible result →
      decodeCanonical result.encodeCanonical = .ok result :=
    fun result h => decodeCanonical_eq_ok_iff.mpr ⟨h, rfl⟩
  have hback : ∀ encoded result, decodeCanonical encoded = .ok result →
      result.encodeCanonical = encoded :=
    fun encoded result h => (decodeCanonical_eq_ok_iff.mp h).2.symm
  refine ⟨hround, hback, ?_, ?_, safe_decodeCanonical⟩
  · intro first second hfirst hsecond heq
    have hread := hround first hfirst
    rw [heq, hround second hsecond] at hread
    exact (Except.ok.inj hread).symm
  · intro encoded encoded' result hfirst hsecond
    rw [← hback encoded result hfirst, hback encoded' result hsecond]

/-- A result with a citation and a claim. -/
def supported : InlineResult where
  answer := "yes".toList
  citations := ["src/lib.rs".toList]
  claims := [{
    id := "c1".toList
    text := "It holds.".toList
    material := true
    locator := "src/lib.rs".toList
    contentDigest := List.replicate 64 '0'
    support := "fn holds() {}".toList
    valid := by decide }]

/-- A claim makes another version of the result, and each version is read back. -/
theorem codec_canonical_supported :
    decodeCanonical supported.encodeCanonical = .ok supported ∧
      decodeCanonical { supported with claims := [] }.encodeCanonical =
        .ok { supported with claims := [] } ∧
      supported.encodeCanonical ≠ { supported with claims := [] }.encodeCanonical := by
  have hboth : Constructible supported := constructible_iff.mpr (by decide)
  have hplain : Constructible { supported with claims := [] } := constructible_iff.mpr (by decide)
  refine ⟨codec_canonical.1 _ hboth, codec_canonical.1 _ hplain, fun h => ?_⟩
  have hsame := codec_canonical.2.2.1 _ _ hboth hplain h
  exact absurd (congrArg (fun result => result.claims.length) hsame) (by decide)

end InlineResult

end Bran.Agent
