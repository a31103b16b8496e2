import Bran.Document.Zip
import Mathlib.Data.List.GetD

/-!
# The PNG predictor of PDF streams

`png_predictor` and `paeth` of `pdf_syntax.rs`.  Indexing and signed arithmetic can panic, as in the
source.  Against it stand the filters of PNG, which the predictor undoes row by row.
-/

namespace Bran.Document.Pdf

open Words Validation Zip List

/-! ## What the source computes -/

/-- The integers that `Doc::lookup` finds in the parameters of the filter. -/
structure PredictorParams where
  colors : Option ℤ
  bitsPerComponent : Option ℤ
  columns : Option ℤ

/-- A result of `i64` arithmetic. -/
def int64 (n : ℤ) : Checked Refusal ℤ :=
  if -2 ^ 63 ≤ n ∧ n < 2 ^ 63 then .ok n else .error .panicked

/-- A result of `i16` arithmetic. -/
def int16 (n : ℤ) : Checked Refusal ℤ :=
  if -2 ^ 15 ≤ n ∧ n < 2 ^ 15 then .ok n else .error .panicked

def byteAt (bytes : List UInt8) (index : ℕ) : Checked Refusal UInt8 :=
  match bytes[index]? with
  | some byte => .ok byte
  | none => .error .panicked

/-- `(estimate - value).abs()`. -/
def distance (estimate : ℤ) (value : UInt8) : Checked Refusal ℤ := do
  let difference ← int16 (estimate - value.toNat)
  int16 difference.natAbs

def paeth (left up upperLeft : UInt8) : Checked Refusal UInt8 := do
  let sum ← int16 (left.toNat + up.toNat)
  let estimate ← int16 (sum - upperLeft.toNat)
  let a ← distance estimate left
  let b ← distance estimate up
  let c ← distance estimate upperLeft
  return if a ≤ b ∧ a ≤ c then left else if b ≤ c then up else upperLeft

/-- What is added to a byte, unless the filter is unknown. -/
def addOf (kind left up upperLeft : UInt8) : Checked Refusal (Option UInt8) :=
  match kind.toNat with
  | 0 => .ok (some 0)
  | 1 => .ok (some left)
  | 2 => .ok (some up)
  | 3 => .ok (some (UInt8.ofNat ((left.toNat + up.toNat) / 2)))
  | 4 => some <$> paeth left up upperLeft
  | _ => .ok none

/-- The byte one pixel to the left. -/
def leftOf (pixel : ℕ) (bytes : List UInt8) (index : ℕ) : Checked Refusal UInt8 :=
  if pixel ≤ index then byteAt bytes (index - pixel) else .ok 0

/-- One turn of the loop over a row. -/
def decodeByte (kind : UInt8) (pixel : ℕ) (previous current : List UInt8) (index : ℕ) :
    Checked Refusal (Option (List UInt8)) := do
  let left ← leftOf pixel current index
  let up ← byteAt previous index
  let upperLeft ← leftOf pixel previous index
  let add ← addOf kind left up upperLeft
  let byte ← byteAt current index
  return add.map fun add => current.set index (byte + add)

/-- The loop over a row, with how many bytes are left. -/
def decodeRow (kind : UInt8) (pixel : ℕ) (previous : List UInt8) :
    ℕ → ℕ → List UInt8 → Checked Refusal (Option (List UInt8))
  | 0, _, current => .ok (some current)
  | count + 1, index, current =>
      decodeByte kind pixel previous current index >>= fun
        | none => .ok none
        | some current => decodeRow kind pixel previous count (index + 1) current

/-- `Vec::resize` with zeros. -/
def resize (bytes : List UInt8) (width : ℕ) : List UInt8 :=
  bytes.take width ++ List.replicate (width - bytes.length) 0

/-- The loop over the rows. -/
def decodeRows (pixel width : ℕ) :
    List (List UInt8) → List UInt8 → List UInt8 → Checked Refusal (Option (List UInt8))
  | [], _, out => .ok (some out)
  | [] :: _, _, _ => .ok none
  | (kind :: bytes) :: rows, previous, out =>
      decodeRow kind pixel previous width 0 (resize bytes width) >>= fun
        | none => .ok none
        | some current => decodeRows pixel width rows current (out ++ current)

/-- `slice::chunks`. -/
def chunks (size : ℕ) (data : List UInt8) : List (List UInt8) :=
  if _h : data = [] ∨ size = 0 then [] else data.take size :: chunks size (data.drop size)
termination_by data.length
decreasing_by
  rw [length_drop]
  have hpos := length_pos_iff.mpr (not_or.mp _h).1
  have hsize := (not_or.mp _h).2
  omega

/-- What `png_predictor` does with a row of `width` bytes and its filter. -/
def predictRows (limits : Limits) (spent pixel width : ℕ) (data : List UInt8) :
    Checked Refusal (Option (List UInt8)) := do
  let stride ← addWord width 1
  if data = [] then return some []
  else
    let rows := (data.length + stride - 1) / stride
    failIf (2 ^ 64 ≤ rows * width) (.refused .decompressionLimit)
    let expanded := rows * width
    let ratio := saturatingMul limits.maxRatio (max data.length 1)
    failIf (limits.maxPartBytes < expanded ∨ ratio < expanded ∨
      limits.maxTotalBytes < saturatingAdd spent expanded) (.refused .decompressionLimit)
    if data.length % stride ≠ 0 then return none
    else decodeRows pixel width (chunks stride data) (List.replicate width 0) []

def pngPredictor (limits : Limits) (spent : ℕ) (params : PredictorParams) (data : List UInt8) :
    Checked Refusal (Option (List UInt8)) := do
  let colors := params.colors.getD 1
  let bits := params.bitsPerComponent.getD 8
  let columns := params.columns.getD 1
  if ¬ (1 ≤ colors ∧ colors ≤ 32) ∨ bits ∉ [1, 2, 4, 8, 16] ∨
      ¬ (1 ≤ columns ∧ columns ≤ 2 ^ 20) then return none
  else
    let perPixel ← int64 (colors * bits)
    let pixel ← int64 (perPixel + 7)
    let perRow ← int64 (perPixel * columns)
    let width ← int64 (perRow + 7)
    predictRows limits spent (pixel / 8).toNat (width / 8).toNat data

/-! ## The filters of PNG -/

inductive Filter where
  | none
  | sub
  | up
  | average
  | paeth
  deriving DecidableEq

/-- The byte in front of a row. -/
def Filter.code : Filter → UInt8
  | .none => 0
  | .sub => 1
  | .up => 2
  | .average => 3
  | .paeth => 4

/-- Of the neighbours the one that is nearest to `left + up - upperLeft`, in this order. -/
def nearest (left up upperLeft : ℤ) : ℤ :=
  let estimate := left + up - upperLeft
  if (estimate - left).natAbs ≤ (estimate - up).natAbs ∧
    (estimate - left).natAbs ≤ (estimate - upperLeft).natAbs then left
  else if (estimate - up).natAbs ≤ (estimate - upperLeft).natAbs then up
  else upperLeft

/-- What a filter predicts from the neighbours of a byte. -/
def Filter.predict (left up upperLeft : UInt8) : Filter → UInt8
  | .none => 0
  | .sub => left
  | .up => up
  | .average => UInt8.ofNat ((left.toNat + up.toNat) / 2)
  | .paeth => UInt8.ofNat (nearest left.toNat up.toNat upperLeft.toNat).toNat

/-- The byte one pixel in front, and zero where there is none. -/
def before (pixel : ℕ) (row : List UInt8) (index : ℕ) : UInt8 :=
  if pixel ≤ index then row.getD (index - pixel) 0 else 0

/-- What a filter predicts for a byte of a row. -/
def Filter.predicted (filter : Filter) (pixel : ℕ) (previous row : List UInt8) (index : ℕ) :
    UInt8 :=
  filter.predict (before pixel row index) (previous.getD index 0) (before pixel previous index)

/-- A row under a filter: each byte less what is predicted for it. -/
def filterRow (filter : Filter) (pixel : ℕ) (previous row : List UInt8) : List UInt8 :=
  (List.range row.length).map fun index =>
    row.getD index 0 - filter.predicted pixel previous row index

/-- Rows under their filters, each behind the code of its filter. -/
def encodeRows (pixel : ℕ) : List UInt8 → List (Filter × List UInt8) → List (List UInt8)
  | _, [] => []
  | previous, (filter, row) :: rows =>
      (filter.code :: filterRow filter pixel previous row) :: encodeRows pixel row rows

/-- The bytes of an image: above its first row everything is zero. -/
def encode (pixel width : ℕ) (rows : List (Filter × List UInt8)) : List UInt8 :=
  (encodeRows pixel (List.replicate width 0) rows).flatten

/-! ## One byte -/

theorem int64_eq_ok {n : ℤ} (h : -2 ^ 63 ≤ n ∧ n < 2 ^ 63) : int64 n = .ok n := if_pos h

theorem int16_eq_ok {n : ℤ} (h : -2 ^ 15 ≤ n ∧ n < 2 ^ 15) : int16 n = .ok n := if_pos h

theorem byteAt_eq_ok {bytes : List UInt8} {index : ℕ} (h : index < bytes.length) :
    byteAt bytes index = .ok (bytes.getD index 0) := by
  rw [byteAt, getElem?_eq_getElem h, getD_eq_getElem _ _ h]

theorem leftOf_eq_ok {pixel index : ℕ} {bytes : List UInt8} (h : index < bytes.length) :
    leftOf pixel bytes index = .ok (before pixel bytes index) := by
  unfold leftOf before
  split_ifs with hpixel
  · exact byteAt_eq_ok ((Nat.sub_le _ _).trans_lt h)
  · rfl

theorem distance_eq_ok {estimate : ℤ} {value : UInt8} (h : -255 ≤ estimate ∧ estimate ≤ 510) :
    distance estimate value = .ok ((estimate - value.toNat).natAbs : ℤ) := by
  have hvalue := value.toNat_lt
  have hdifference : int16 (estimate - value.toNat) = .ok (estimate - value.toNat) :=
    int16_eq_ok (by omega)
  rw [distance, hdifference, ok_bind, int16_eq_ok (by omega)]

/-- The arithmetic of `paeth` stays within 16 bits, and it is that of the standard. -/
theorem paeth_eq_ok (left up upperLeft : UInt8) :
    paeth left up upperLeft = .ok (Filter.paeth.predict left up upperLeft) := by
  have hleft := left.toNat_lt
  have hup := up.toNat_lt
  have hupperLeft := upperLeft.toNat_lt
  have hsum : int16 (left.toNat + up.toNat) = .ok ((left.toNat : ℤ) + up.toNat) :=
    int16_eq_ok (by omega)
  have hestimate : int16 (left.toNat + up.toNat - upperLeft.toNat) =
      .ok ((left.toNat : ℤ) + up.toNat - upperLeft.toNat) := int16_eq_ok (by omega)
  have hbounds : -255 ≤ (left.toNat : ℤ) + up.toNat - upperLeft.toNat ∧
      (left.toNat : ℤ) + up.toNat - upperLeft.toNat ≤ 510 := by omega
  rw [paeth, hsum, ok_bind, hestimate, ok_bind, distance_eq_ok hbounds, ok_bind,
    distance_eq_ok hbounds, ok_bind, distance_eq_ok hbounds, ok_bind]
  refine congrArg Except.ok ?_
  simp only [Filter.predict, nearest, Int.ofNat_le]
  split_ifs <;> simp

/-- The filter that a byte stands for. -/
def Filter.ofCode (kind : UInt8) : Option Filter :=
  match kind.toNat with
  | 0 => some .none
  | 1 => some .sub
  | 2 => some .up
  | 3 => some .average
  | 4 => some .paeth
  | _ => Option.none

theorem Filter.ofCode_code (filter : Filter) : Filter.ofCode filter.code = some filter := by
  cases filter <;> rfl

theorem addOf_eq_ok (kind left up upperLeft : UInt8) : addOf kind left up upperLeft =
    .ok ((Filter.ofCode kind).map (Filter.predict left up upperLeft)) := by
  unfold addOf Filter.ofCode
  split
  · rfl
  · rfl
  · rfl
  · rfl
  · rw [paeth_eq_ok]
    rfl
  · rfl

/-- What becomes of a row at one byte. -/
def restore (filter : Filter) (pixel : ℕ) (previous current : List UInt8) (index : ℕ) :
    List UInt8 :=
  current.set index (current.getD index 0 + filter.predicted pixel previous current index)

theorem decodeByte_eq_ok {kind : UInt8} {pixel index : ℕ} {previous current : List UInt8}
    (hprevious : index < previous.length) (hcurrent : index < current.length) :
    decodeByte kind pixel previous current index =
      .ok ((Filter.ofCode kind).map fun filter => restore filter pixel previous current index) := by
  rw [decodeByte, leftOf_eq_ok hcurrent, ok_bind, byteAt_eq_ok hprevious, ok_bind,
    leftOf_eq_ok hprevious, ok_bind, addOf_eq_ok, ok_bind, byteAt_eq_ok hcurrent, ok_bind]
  exact congrArg Except.ok (Option.map_map _ _ _)

/-! ## One row -/

/-- What becomes of a row from one byte on. -/
def restoreFrom (filter : Filter) (pixel : ℕ) (previous : List UInt8) :
    ℕ → ℕ → List UInt8 → List UInt8
  | 0, _, current => current
  | count + 1, index, current =>
      restoreFrom filter pixel previous count (index + 1)
        (restore filter pixel previous current index)

theorem length_restore (filter : Filter) (pixel : ℕ) (previous current : List UInt8) (index : ℕ) :
    (restore filter pixel previous current index).length = current.length := length_set

theorem length_restoreFrom (filter : Filter) (pixel : ℕ) (previous : List UInt8)
    (count index : ℕ) (current : List UInt8) :
    (restoreFrom filter pixel previous count index current).length = current.length := by
  induction count generalizing index current with
  | zero => rfl
  | succ count ih =>
      rw [restoreFrom, ih]
      exact length_restore _ _ _ _ _

theorem decodeRow_eq_ok {kind : UInt8} {filter : Filter} (hkind : Filter.ofCode kind = some filter)
    {pixel : ℕ} {previous : List UInt8} {count index : ℕ} {current : List UInt8}
    (hprevious : index + count ≤ previous.length) (hcurrent : index + count ≤ current.length) :
    decodeRow kind pixel previous count index current =
      .ok (some (restoreFrom filter pixel previous count index current)) := by
  induction count generalizing index current with
  | zero => rfl
  | succ count ih =>
      rw [decodeRow, decodeByte_eq_ok (by omega) (by omega), ok_bind, hkind]
      exact ih (by omega) (by rw [length_restore]; omega)

theorem decodeRow_unknown {kind : UInt8} (hkind : Filter.ofCode kind = none) {pixel : ℕ}
    {previous current : List UInt8} {count : ℕ} (hcount : 0 < count)
    (hprevious : 0 < previous.length) (hcurrent : 0 < current.length) :
    decodeRow kind pixel previous count 0 current = .ok none := by
  obtain ⟨count, rfl⟩ := Nat.exists_eq_succ_of_ne_zero hcount.ne'
  rw [decodeRow, decodeByte_eq_ok hprevious hcurrent, ok_bind, hkind]
  rfl

theorem length_filterRow (filter : Filter) (pixel : ℕ) (previous row : List UInt8) :
    (filterRow filter pixel previous row).length = row.length := by
  rw [filterRow, length_map, length_range]

/-- Left of a byte the row is restored already. -/
theorem before_append {pixel : ℕ} (hpixel : 0 < pixel) (row rest : List UInt8) {index : ℕ}
    (hindex : index ≤ row.length) :
    before pixel (row.take index ++ rest) index = before pixel row index := by
  unfold before
  split_ifs with h
  · have hlt : index - pixel < (row.take index).length := by
      rw [length_take]
      omega
    rw [getD_append _ _ _ _ hlt, getD_eq_getElem _ _ hlt, getElem_take,
      getD_eq_getElem]
  · rfl

/-- One byte of a row is restored, with the bytes left of it. -/
theorem restore_filterRow {filter : Filter} {pixel : ℕ} (hpixel : 0 < pixel)
    {previous row : List UInt8} {index : ℕ} (hindex : index < row.length) :
    restore filter pixel previous
        (row.take index ++ (filterRow filter pixel previous row).drop index) index =
      row.take (index + 1) ++ (filterRow filter pixel previous row).drop (index + 1) := by
  have hfiltered : index < (filterRow filter pixel previous row).length := by
    rw [length_filterRow]
    exact hindex
  have htake : (row.take index).length = index := length_take_of_le hindex.le
  have hhere : (row.take index ++ (filterRow filter pixel previous row).drop index).getD index 0 =
      row.getD index 0 - filter.predicted pixel previous row index := by
    rw [getD_append_right _ _ _ _ htake.le, htake, Nat.sub_self,
      drop_eq_getElem_cons hfiltered]
    simp [filterRow]
  have hpredicted : filter.predicted pixel previous
      (row.take index ++ (filterRow filter pixel previous row).drop index) index =
      filter.predicted pixel previous row index := by
    unfold Filter.predicted
    rw [before_append hpixel _ _ hindex.le]
  rw [restore, hhere, hpredicted, UInt8.sub_add_cancel,
    set_append_right _ _ htake.le, htake, Nat.sub_self, drop_eq_getElem_cons hfiltered,
    set_cons_zero, take_succ_eq_append_getElem hindex, append_assoc,
    getD_eq_getElem _ _ hindex]
  rfl

theorem restoreFrom_filterRow {filter : Filter} {pixel : ℕ} (hpixel : 0 < pixel)
    {previous row : List UInt8} :
    restoreFrom filter pixel previous row.length 0 (filterRow filter pixel previous row) = row := by
  have hfrom : ∀ count index, index + count = row.length →
      restoreFrom filter pixel previous count index
        (row.take index ++ (filterRow filter pixel previous row).drop index) = row := by
    intro count
    induction count with
    | zero =>
        intro index hindex
        have hlength := length_filterRow filter pixel previous row
        rw [restoreFrom, take_of_length_le (by omega), drop_of_length_le (by omega),
          append_nil]
    | succ count ih =>
        intro index hindex
        rw [restoreFrom, restore_filterRow hpixel (by omega)]
        exact ih (index + 1) (by omega)
  exact hfrom row.length 0 (Nat.zero_add _)

/-! ## All rows -/

theorem length_resize (bytes : List UInt8) (width : ℕ) : (resize bytes width).length = width := by
  rw [resize, length_append, length_take, length_replicate]
  omega

theorem resize_eq_self {bytes : List UInt8} {width : ℕ} (h : bytes.length = width) :
    resize bytes width = bytes := by
  rw [resize, h, Nat.sub_self, take_of_length_le h.le]
  exact append_nil _

section Rows

variable {pixel width : ℕ} {rows : List (List UInt8)} {previous out : List UInt8}

/-- One row under a known filter. -/
theorem decodeRows_cons {kind : UInt8} {filter : Filter}
    (hkind : Filter.ofCode kind = some filter) (hprevious : previous.length = width)
    (bytes : List UInt8) : decodeRows pixel width ((kind :: bytes) :: rows) previous out =
      decodeRows pixel width rows (restoreFrom filter pixel previous width 0 (resize bytes width))
        (out ++ restoreFrom filter pixel previous width 0 (resize bytes width)) := by
  have hlength := length_resize bytes width
  rw [decodeRows, decodeRow_eq_ok hkind (by omega) (by omega), ok_bind]

/-- One row under an unknown filter. -/
theorem decodeRows_cons_unknown {kind : UInt8} (hkind : Filter.ofCode kind = none)
    (hwidth : 0 < width) (hprevious : previous.length = width) (bytes : List UInt8) :
    decodeRows pixel width ((kind :: bytes) :: rows) previous out = .ok none := by
  have hlength := length_resize bytes width
  rw [decodeRows, decodeRow_unknown hkind hwidth (by omega) (by omega), ok_bind]

theorem length_restoreFrom_resize (filter : Filter) (bytes : List UInt8) :
    (restoreFrom filter pixel previous width 0 (resize bytes width)).length = width := by
  rw [length_restoreFrom, length_resize]

theorem safe_decodeRows (hwidth : 0 < width) (hprevious : previous.length = width) :
    Safe (decodeRows pixel width rows previous out) := by
  induction rows generalizing previous out with
  | nil => exact safe_ok
  | cons row rows ih =>
      cases row with
      | nil => exact safe_ok
      | cons kind bytes =>
          cases hkind : Filter.ofCode kind with
          | none =>
              rw [decodeRows_cons_unknown hkind hwidth hprevious]
              exact safe_ok
          | some filter =>
              rw [decodeRows_cons hkind hprevious]
              exact ih (length_restoreFrom_resize filter bytes)

/-- A row under an unknown filter ends the loop. -/
theorem decodeRows_unknown (hwidth : 0 < width) (hprevious : previous.length = width)
    (hrow : ∃ row ∈ rows, ∃ kind ∈ row.head?, Filter.ofCode kind = none) :
    decodeRows pixel width rows previous out = .ok none := by
  induction rows generalizing previous out with
  | nil =>
      obtain ⟨row, hmem, -⟩ := hrow
      exact absurd hmem not_mem_nil
  | cons row rows ih =>
      cases row with
      | nil => rfl
      | cons kind bytes =>
          cases hkind : Filter.ofCode kind with
          | none => exact decodeRows_cons_unknown hkind hwidth hprevious bytes
          | some filter =>
              rw [decodeRows_cons hkind hprevious]
              refine ih (length_restoreFrom_resize filter bytes) ?_
              obtain ⟨bad, hmem, kind', hhead, hbad⟩ := hrow
              rcases mem_cons.mp hmem with rfl | hmem
              · obtain rfl := Option.some.inj hhead
                exact (nomatch hkind.symm.trans hbad)
              · exact ⟨bad, hmem, kind', hhead, hbad⟩

/-- Filtered rows are restored. -/
theorem decodeRows_encodeRows (hpixel : 0 < pixel) {image : List (Filter × List UInt8)}
    (himage : ∀ row ∈ image, row.2.length = width) (hprevious : previous.length = width) :
    decodeRows pixel width (encodeRows pixel previous image) previous out =
      .ok (some (out ++ image.flatMap Prod.snd)) := by
  induction image generalizing previous out with
  | nil =>
      rw [flatMap_nil, append_nil]
      rfl
  | cons row image ih =>
      obtain ⟨filter, row⟩ := row
      obtain ⟨hrow, himage⟩ := forall_mem_cons.mp himage
      have hfiltered : (filterRow filter pixel previous row).length = width := by
        rw [length_filterRow]
        exact hrow
      have hrestored : restoreFrom filter pixel previous width 0
          (resize (filterRow filter pixel previous row) width) = row := by
        rw [resize_eq_self hfiltered]
        obtain rfl : row.length = width := hrow
        exact restoreFrom_filterRow hpixel
      rw [encodeRows, decodeRows_cons (Filter.ofCode_code filter) hprevious, hrestored,
        ih himage hrow, flatMap_cons, append_assoc]

theorem length_of_mem_encodeRows {image : List (Filter × List UInt8)}
    (himage : ∀ row ∈ image, row.2.length = width) :
    ∀ row ∈ encodeRows pixel previous image, row.length = width + 1 := by
  induction image generalizing previous with
  | nil => exact fun row hrow => absurd hrow not_mem_nil
  | cons row image ih =>
      obtain ⟨filter, row⟩ := row
      obtain ⟨hrow, himage⟩ := forall_mem_cons.mp himage
      refine forall_mem_cons.mpr ⟨?_, ih himage⟩
      rw [length_cons, length_filterRow]
      exact congrArg (· + 1) hrow

theorem length_encodeRows (image : List (Filter × List UInt8)) :
    (encodeRows pixel previous image).length = image.length := by
  induction image generalizing previous with
  | nil => rfl
  | cons row image ih => exact congrArg (· + 1) ih

end Rows

/-! ## The rows of the data -/

theorem chunks_cons {size : ℕ} (hsize : 0 < size) {data : List UInt8} (hdata : data ≠ []) :
    chunks size data = data.take size :: chunks size (data.drop size) := by
  rw [chunks, dif_neg (not_or.mpr ⟨hdata, hsize.ne'⟩)]

theorem chunks_flatten {size : ℕ} (hsize : 0 < size) {rows : List (List UInt8)}
    (hrows : ∀ row ∈ rows, row.length = size) : chunks size rows.flatten = rows := by
  induction rows with
  | nil => rw [flatten_nil, chunks, dif_pos (Or.inl rfl)]
  | cons row rows ih =>
      obtain ⟨hrow, hrows⟩ := forall_mem_cons.mp hrows
      have hne : row ++ rows.flatten ≠ [] := by
        refine append_ne_nil_of_left_ne_nil ?_ _
        exact length_pos_iff.mp (hrow ▸ hsize)
      rw [flatten_cons, chunks_cons hsize hne, ← hrow, take_left, drop_left, hrow,
        ih hrows]

/-- Each row starts at a multiple of the size. -/
theorem mem_chunks {size : ℕ} (hsize : 0 < size) {data : List UInt8} {k : ℕ}
    (hk : k * size < data.length) :
    ∃ row ∈ chunks size data, row.head? = some (data.getD (k * size) 0) := by
  induction k generalizing data with
  | zero =>
      have hdata : data ≠ [] := length_pos_iff.mp (by omega)
      obtain ⟨byte, rest, rfl⟩ := exists_cons_of_ne_nil hdata
      obtain ⟨size, rfl⟩ := Nat.exists_eq_succ_of_ne_zero hsize.ne'
      refine ⟨_, by rw [chunks_cons hsize hdata]; exact mem_cons_self, ?_⟩
      rw [Nat.zero_mul]
      rfl
  | succ k ih =>
      have hdata : data ≠ [] := length_pos_iff.mp (by omega)
      rw [Nat.succ_mul] at hk
      obtain ⟨row, hrow, hhead⟩ := @ih (data.drop size) (by rw [length_drop]; omega)
      refine ⟨row, by rw [chunks_cons hsize hdata]; exact mem_cons_of_mem _ hrow, ?_⟩
      rw [hhead, getD_eq_getElem?_getD, getElem?_drop, Nat.succ_mul, Nat.add_comm size,
        ← getD_eq_getElem?_getD]

/-- The budgets for what filtered data expands to. -/
def Fits (limits : Limits) (spent filtered expanded : ℕ) : Prop :=
  expanded ≤ limits.maxPartBytes ∧ expanded ≤ saturatingMul limits.maxRatio filtered ∧
    saturatingAdd spent expanded ≤ limits.maxTotalBytes

instance (limits : Limits) (spent filtered expanded : ℕ) :
    Decidable (Fits limits spent filtered expanded) := inferInstanceAs (Decidable (_ ∧ _))

/-- What data expands to, a row that has only begun counted in full. -/
def expandedOf (width filtered : ℕ) : ℕ := (filtered + width) / (width + 1) * width

/-- The budgets come before everything that is read from the rows. -/
theorem predictRows_eq {limits : Limits} {spent pixel width : ℕ} {data : List UInt8}
    (hwidth : width + 1 < 2 ^ 64) (hdata : data ≠ []) :
    predictRows limits spent pixel width data =
      if Fits limits spent data.length (expandedOf width data.length) then
        if data.length % (width + 1) ≠ 0 then .ok none
        else decodeRows pixel width (chunks (width + 1) data) (List.replicate width 0) []
      else .error (.refused .decompressionLimit) := by
  have hpart := limits.words.2.2.1
  have hmax : max data.length 1 = data.length :=
    max_eq_left (length_pos_iff.mpr hdata)
  have hrows : (data.length + (width + 1) - 1) / (width + 1) * width =
      expandedOf width data.length := rfl
  rw [predictRows, addWord_eq_ok hwidth, ok_bind, if_neg hdata, hmax]
  dsimp only
  rw [hrows]
  by_cases hfits : Fits limits spent data.length (expandedOf width data.length)
  · have hword : ¬ 2 ^ 64 ≤ expandedOf width data.length := by
      have hle := hfits.1
      omega
    rw [if_pos hfits, failIf_bind_eq hword, failIf_bind_eq]
    · split_ifs <;> rfl
    · rw [not_or, not_or, not_lt, not_lt, not_lt]
      exact hfits
  · rw [if_neg hfits]
    by_cases hword : 2 ^ 64 ≤ expandedOf width data.length
    · rw [failIf, if_pos hword]
      rfl
    · have hover : limits.maxPartBytes < expandedOf width data.length ∨
          saturatingMul limits.maxRatio data.length < expandedOf width data.length ∨
          limits.maxTotalBytes < saturatingAdd spent (expandedOf width data.length) := by
        by_contra hnot
        rw [not_or, not_or, not_lt, not_lt, not_lt] at hnot
        exact hfits hnot
      rw [failIf_bind_eq hword, failIf, if_pos hover]
      rfl

/-! ## The predictor -/

/-- The numbers that the predictor accepts. -/
def InRange (colors bits columns : ℕ) : Prop :=
  (1 ≤ colors ∧ colors ≤ 32) ∧ bits ∈ [1, 2, 4, 8, 16] ∧ 1 ≤ columns ∧ columns ≤ 2 ^ 20

/-- The numbers that the parameters hold, or leave to the defaults. -/
def PredictorParams.Are (params : PredictorParams) (colors bits columns : ℕ) : Prop :=
  params.colors.getD 1 = colors ∧ params.bitsPerComponent.getD 8 = bits ∧
    params.columns.getD 1 = columns

def pixelOf (colors bits : ℕ) : ℕ := (colors * bits + 7) / 8

/-- The bytes of a row. -/
def widthOf (colors bits columns : ℕ) : ℕ := (colors * bits * columns + 7) / 8

section Predictor

variable {limits : Limits} {spent : ℕ} {params : PredictorParams} {data : List UInt8}
  {colors bits columns : ℕ}

theorem InRange.bounds (h : InRange colors bits columns) :
    0 < colors * bits ∧ colors * bits ≤ 512 ∧ 0 < colors * bits * columns ∧
      colors * bits * columns ≤ 512 * 2 ^ 20 := by
  obtain ⟨⟨hcolors, hcolors'⟩, hbits, hcolumns, hcolumns'⟩ := h
  have hbits' : 1 ≤ bits ∧ bits ≤ 16 := by
    simp only [mem_cons, not_mem_nil, or_false] at hbits
    omega
  have hpixel : colors * bits ≤ 32 * 16 := Nat.mul_le_mul hcolors' hbits'.2
  have hpositive : 0 < colors * bits := Nat.mul_pos hcolors hbits'.1
  exact ⟨hpositive, hpixel, Nat.mul_pos hpositive hcolumns, Nat.mul_le_mul hpixel hcolumns'⟩

theorem InRange.pixelOf_pos (h : InRange colors bits columns) : 0 < pixelOf colors bits := by
  have hbounds := h.bounds
  unfold pixelOf
  omega

theorem InRange.widthOf_bounds (h : InRange colors bits columns) :
    0 < widthOf colors bits columns ∧ widthOf colors bits columns + 1 < 2 ^ 64 := by
  have hbounds := h.bounds
  unfold widthOf
  omega

/-- The products of the parameters stay within 64 bits. -/
theorem pngPredictor_eq (hparams : params.Are colors bits columns)
    (h : InRange colors bits columns) : pngPredictor limits spent params data =
      predictRows limits spent (pixelOf colors bits) (widthOf colors bits columns) data := by
  have hbounds := h.bounds
  obtain ⟨hcolors, hbits, hcolumns⟩ := hparams
  have hrange : ¬ (¬ (1 ≤ (colors : ℤ) ∧ (colors : ℤ) ≤ 32) ∨ (bits : ℤ) ∉ [1, 2, 4, 8, 16] ∨
      ¬ (1 ≤ (columns : ℤ) ∧ (columns : ℤ) ≤ 2 ^ 20)) := by
    obtain ⟨hc, hb, hn⟩ := h
    simp only [mem_cons, not_mem_nil, or_false] at hb ⊢
    omega
  have hword : ∀ n : ℕ, n ≤ 2 ^ 40 → int64 n = .ok (n : ℤ) := fun n hn =>
    int64_eq_ok (by omega)
  have hperPixel : int64 ((colors : ℤ) * bits) = .ok ((colors * bits : ℕ) : ℤ) := by
    rw [← Int.natCast_mul]
    exact hword _ (by omega)
  have hpixel : int64 (((colors * bits : ℕ) : ℤ) + 7) = .ok ((colors * bits + 7 : ℕ) : ℤ) :=
    hword (colors * bits + 7) (by omega)
  have hperRow : int64 (((colors * bits : ℕ) : ℤ) * columns) =
      .ok ((colors * bits * columns : ℕ) : ℤ) := by
    rw [← Int.natCast_mul]
    exact hword _ (by omega)
  have hwidth : int64 (((colors * bits * columns : ℕ) : ℤ) + 7) =
      .ok ((colors * bits * columns + 7 : ℕ) : ℤ) :=
    hword (colors * bits * columns + 7) (by omega)
  rw [pngPredictor, hcolors, hbits, hcolumns, if_neg hrange, hperPixel, ok_bind, hpixel, ok_bind,
    hperRow, ok_bind, hwidth, ok_bind]
  rfl

/-- Neither an index nor a number leaves its bounds, whatever the data and the parameters are. -/
theorem safe_pngPredictor : Safe (pngPredictor limits spent params data) := by
  by_cases hrange : ∃ colors bits columns, params.Are colors bits columns ∧
      InRange colors bits columns
  · obtain ⟨colors, bits, columns, hparams, h⟩ := hrange
    obtain ⟨hpositive, hword⟩ := h.widthOf_bounds
    rw [pngPredictor_eq hparams h]
    by_cases hdata : data = []
    · rw [predictRows, addWord_eq_ok hword, ok_bind, if_pos hdata]
      exact safe_ok
    · rw [predictRows_eq hword hdata]
      split_ifs
      · exact safe_ok
      · exact safe_decodeRows hpositive length_replicate
      · exact safe_refused
  · have hout : ¬ (1 ≤ params.colors.getD 1 ∧ params.colors.getD 1 ≤ 32) ∨
        params.bitsPerComponent.getD 8 ∉ [1, 2, 4, 8, 16] ∨
        ¬ (1 ≤ params.columns.getD 1 ∧ params.columns.getD 1 ≤ 2 ^ 20) := by
      by_contra hnot
      simp only [not_or, not_not, mem_cons, not_mem_nil, or_false] at hnot
      obtain ⟨hc, hb, hn⟩ := hnot
      refine hrange ⟨(params.colors.getD 1).toNat, (params.bitsPerComponent.getD 8).toNat,
        (params.columns.getD 1).toNat, ⟨by omega, by omega, by omega⟩, by omega, ?_, by omega,
        by omega⟩
      simp only [mem_cons, not_mem_nil, or_false]
      omega
    rw [pngPredictor, if_pos hout]
    exact safe_ok

end Predictor

/-- The predictor restores what the filters of PNG were applied to, refuses what would expand beyond
a budget, and of what fits gives nothing back when a row is cut off or its filter unknown. -/
theorem pngPredictor_decodes (limits : Limits) (spent : ℕ) (params : PredictorParams)
    (data : List UInt8) :
    Safe (pngPredictor limits spent params data) ∧
      ∀ colors bits columns, params.Are colors bits columns → InRange colors bits columns →
        (data = [] → pngPredictor limits spent params data = .ok (some [])) ∧
        (∀ image : List (Filter × List UInt8), image ≠ [] →
          (∀ row ∈ image, row.2.length = widthOf colors bits columns) →
          data = encode (pixelOf colors bits) (widthOf colors bits columns) image →
          pngPredictor limits spent params data =
            if Fits limits spent data.length (image.flatMap Prod.snd).length then
              .ok (some (image.flatMap Prod.snd))
            else .error (.refused .decompressionLimit)) ∧
        (data ≠ [] →
          (data.length % (widthOf colors bits columns + 1) ≠ 0 ∨
            ∃ k, k * (widthOf colors bits columns + 1) < data.length ∧
              Filter.ofCode (data.getD (k * (widthOf colors bits columns + 1)) 0) = none) →
          pngPredictor limits spent params data =
            if Fits limits spent data.length
                (expandedOf (widthOf colors bits columns) data.length) then .ok none
            else .error (.refused .decompressionLimit)) := by
  refine ⟨safe_pngPredictor, fun colors bits columns hparams h => ?_⟩
  obtain ⟨hpositive, hword⟩ := h.widthOf_bounds
  rw [pngPredictor_eq hparams h]
  generalize widthOf colors bits columns = width at hpositive hword
  refine ⟨fun hdata => ?_, fun image himage hrows hencode => ?_, fun hdata hbad => ?_⟩
  · rw [predictRows, addWord_eq_ok hword, ok_bind, if_pos hdata]
    rfl
  · have hprevious : (List.replicate width (0 : UInt8)).length = width := length_replicate
    have hlengths := @length_of_mem_encodeRows (pixelOf colors bits) width
      (List.replicate width 0) image hrows
    have hlength : data.length = image.length * (width + 1) := by
      rw [hencode, encode, length_flatten, map_congr_left hlengths, map_const',
        sum_replicate_nat, length_encodeRows]
    have htotal : (image.flatMap Prod.snd).length = image.length * width := by
      rw [length_flatMap, map_congr_left hrows, map_const', sum_replicate_nat]
    have hexpanded : expandedOf width data.length = (image.flatMap Prod.snd).length := by
      rw [htotal, expandedOf, hlength, Nat.add_comm, Nat.add_mul_div_right _ _ (Nat.succ_pos _),
        Nat.div_eq_of_lt (Nat.lt_succ_self _), Nat.zero_add]
    have hne : data ≠ [] := by
      refine length_pos_iff.mp ?_
      rw [hlength]
      exact Nat.mul_pos (length_pos_iff.mpr himage) (Nat.succ_pos _)
    have hmultiple : ¬ data.length % (width + 1) ≠ 0 := by
      rw [hlength, not_not]
      exact Nat.mul_mod_left _ _
    rw [predictRows_eq hword hne, hexpanded, if_neg hmultiple]
    refine if_congr Iff.rfl ?_ rfl
    rw [hencode, encode, chunks_flatten (Nat.succ_pos _) hlengths,
      decodeRows_encodeRows h.pixelOf_pos hrows hprevious, nil_append]
  · rw [predictRows_eq hword hdata]
    refine if_congr Iff.rfl ?_ rfl
    split_ifs with hmultiple
    · rfl
    · obtain ⟨k, hk, hunknown⟩ := hbad.resolve_left hmultiple
      obtain ⟨row, hrow, hhead⟩ := mem_chunks (Nat.succ_pos width) hk
      exact decodeRows_unknown hpositive length_replicate
        ⟨row, hrow, _, Option.mem_def.mpr hhead, hunknown⟩

/-- The defaults, but for the number of columns. -/
def columnsOnly (columns : ℤ) : PredictorParams := ⟨none, none, some columns⟩

/-- Two rows of three bytes, under two filters. -/
def twoRows : List (Filter × List UInt8) := [(.sub, [10, 20, 30]), (.paeth, [11, 21, 31])]

theorem pngPredictor_twoRows :
    pngPredictor .default 0 (columnsOnly 3) [1, 10, 10, 10, 4, 1, 1, 1] =
      .ok (some [10, 20, 30, 11, 21, 31]) := by
  have hare : (columnsOnly 3).Are 1 8 3 := ⟨rfl, rfl, rfl⟩
  have hrange : InRange 1 8 3 := ⟨by decide, by decide, by decide, by decide⟩
  have hrows : ∀ row ∈ twoRows, row.2.length = widthOf 1 8 3 := by decide
  have hencode : [1, 10, 10, 10, 4, 1, 1, 1] = encode (pixelOf 1 8) (widthOf 1 8 3) twoRows := by
    decide
  exact ((pngPredictor_decodes .default 0 (columnsOnly 3) _).2 1 8 3 hare hrange).2.1
    twoRows (cons_ne_nil _ _) hrows hencode

/-- One byte of a row of more than a hundred is refused, and not given up as cut off. -/
theorem pngPredictor_cut_off :
    [(0 : UInt8)].length % (widthOf 1 8 1024 + 1) ≠ 0 ∧
      pngPredictor .default 0 (columnsOnly 1024) [0] = .error (.refused .decompressionLimit) := by
  decide

end Bran.Document.Pdf
