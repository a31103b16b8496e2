import Bran.Document.Canonical
import Bran.Library.CharCode
import Bran.Library.Utf8

/-!
# The texts of canonical JSON

Which texts stand for which value, for the dialects the readers of the four formats accept.  A
dialect says whether blanks may stand between tokens, whether the keys of an object must differ
and what may follow a backslash.  The text `write` gives a value is one of its texts in every
dialect that knows the writer's escapes.
-/

namespace Bran.Document.Json

open Text CharCode List

/-- What a reader accepts beyond the shape of values. -/
structure Dialect where
  blank : Bool
  strict : Bool
  escape : Str → Char → Prop

def isBlank (c : Char) : Bool := c = ' ' || c = '\t' || c = '\n' || c = '\r'

/-- A word between quotes. -/
def quoted (body : Str) : Str := '"' :: (body ++ ['"'])

/-- `i64::from_str` on a text without a plus sign. -/
def parseI64 (text : Str) : Option ℤ :=
  match stripStart ['-'] text with
  | some digits => (parseUnsigned (2 ^ 63 + 1) digits).map fun n : ℕ => -(n : ℤ)
  | none => (parseUnsigned (2 ^ 63) text).map fun n : ℕ => (n : ℤ)

/-- The three words that are values. -/
def words : List (Str × Json) :=
  [("null".toList, .null), ("true".toList, .bool true), ("false".toList, .bool false)]

namespace Dialect

variable (D : Dialect)

/-- The blanks that may stand before a token. -/
def Blank (w : Str) : Prop := ∀ c ∈ w, D.blank = true ∧ isBlank c = true

/-- What may stand between quotes, and the text it writes. -/
inductive Body : Str → Str → Prop
  | nil : Body [] []
  | plain {c : Char} {body s : Str} (hc : c ≠ '"' ∧ c ≠ '\\' ∧ 0x20 ≤ c.toNat)
      (hrest : Body body s) : Body (c :: body) (c :: s)
  | escape {word body s : Str} {c : Char} (hword : D.escape word c) (hrest : Body body s) :
      Body ('\\' :: (word ++ body)) (c :: s)

variable (V : Str → Json → Prop)

/-- The items of an array up to its bracket, over the texts of one value. -/
inductive Items : Str → List Json → Prop
  | last {text w : Str} {item : Json} (hitem : V text item) (hw : D.Blank w) :
      Items (text ++ (w ++ [']'])) [item]
  | cons {text w rest : Str} {item : Json} {items : List Json} (hitem : V text item)
      (hw : D.Blank w) (hrest : Items rest items) :
      Items (text ++ (w ++ ',' :: rest)) (item :: items)

/-- A key with its colon and its value. -/
inductive Member : Str → Str × Json → Prop
  | mk {w body key w' text : Str} {item : Json} (hw : D.Blank w) (hkey : D.Body body key)
      (hw' : D.Blank w') (hitem : V text item) :
      Member (w ++ (quoted body ++ (w' ++ ':' :: text))) (key, item)

/-- The members of an object up to its brace. -/
inductive Members : Str → List (Str × Json) → Prop
  | last {text w : Str} {entry : Str × Json} (hentry : D.Member V text entry) (hw : D.Blank w) :
      Members (text ++ (w ++ ['}'])) [entry]
  | cons {text w rest : Str} {entry : Str × Json} {entries : List (Str × Json)}
      (hentry : D.Member V text entry) (hw : D.Blank w) (hrest : Members rest entries) :
      Members (text ++ (w ++ ',' :: rest)) (entry :: entries)

/-- A value over the texts of the values inside it. -/
inductive Form : Str → Json → Prop
  | word {w text : Str} {value : Json} (hw : D.Blank w) (hword : (text, value) ∈ words) :
      Form (w ++ text) value
  | int {w text : Str} {value : ℤ} (hw : D.Blank w) (hint : parseI64 text = some value) :
      Form (w ++ text) (.int value)
  | str {w body s : Str} (hw : D.Blank w) (hbody : D.Body body s) :
      Form (w ++ quoted body) (.str s)
  | emptyArr {w w' : Str} (hw : D.Blank w) (hw' : D.Blank w') :
      Form (w ++ '[' :: (w' ++ [']'])) (.arr [])
  | arr {w text : Str} {items : List Json} (hw : D.Blank w) (hitems : D.Items V text items) :
      Form (w ++ '[' :: text) (.arr items)
  | emptyObj {w w' : Str} (hw : D.Blank w) (hw' : D.Blank w') :
      Form (w ++ '{' :: (w' ++ ['}'])) (.obj [])
  | obj {w text : Str} {entries : List (Str × Json)} (hw : D.Blank w)
      (hentries : D.Members V text entries)
      (hkeys : D.strict = true → (entries.map Prod.fst).Nodup) :
      Form (w ++ '{' :: text) (Json.ofMap (OrdMap.ofList entries))

/-- The texts of a value inside which nothing stands deeper than a budget allows. -/
def Value : ℕ → Str → Json → Prop
  | 0 => fun _ _ => False
  | budget + 1 => D.Form (Value budget)

end Dialect

/-! ## Leading blanks -/

section Blanks

variable {D : Dialect} {V : Str → Json → Prop}

theorem blank_nil (D : Dialect) : D.Blank [] := fun _ h => absurd h not_mem_nil

theorem blank_append {w w' : Str} (hw : D.Blank w) (hw' : D.Blank w') : D.Blank (w ++ w') := by
  intro c hc
  rcases mem_append.mp hc with h | h
  · exact hw c h
  · exact hw' c h

/-- A relation between texts and values that does not look at leading blanks. -/
def Padded (D : Dialect) (V : Str → Json → Prop) : Prop :=
  ∀ {w text value}, D.Blank w → V text value → V (w ++ text) value

theorem padded_form : Padded D (D.Form V) := by
  intro w₀ text value hw₀ hform
  cases hform with
  | word hw hword =>
      rw [← append_assoc]
      exact .word (blank_append hw₀ hw) hword
  | int hw hint =>
      rw [← append_assoc]
      exact .int (blank_append hw₀ hw) hint
  | str hw hbody =>
      rw [← append_assoc]
      exact .str (blank_append hw₀ hw) hbody
  | emptyArr hw hw' =>
      rw [← append_assoc]
      exact .emptyArr (blank_append hw₀ hw) hw'
  | arr hw hitems =>
      rw [← append_assoc]
      exact .arr (blank_append hw₀ hw) hitems
  | emptyObj hw hw' =>
      rw [← append_assoc]
      exact .emptyObj (blank_append hw₀ hw) hw'
  | obj hw hentries hkeys =>
      rw [← append_assoc]
      exact .obj (blank_append hw₀ hw) hentries hkeys

theorem padded_value {budget : ℕ} : Padded D (D.Value budget) := by
  cases budget with
  | zero => exact fun _ h => h
  | succ budget => exact padded_form

theorem padded_items (hV : Padded D V) {w text : Str} {items : List Json} (hw : D.Blank w)
    (hitems : D.Items V text items) : D.Items V (w ++ text) items := by
  cases hitems with
  | last hitem hw' =>
      rw [← append_assoc]
      exact .last (hV hw hitem) hw'
  | cons hitem hw' hrest =>
      rw [← append_assoc]
      exact .cons (hV hw hitem) hw' hrest

theorem padded_member {w text : Str} {entry : Str × Json} (hw : D.Blank w)
    (hentry : D.Member V text entry) : D.Member V (w ++ text) entry := by
  obtain ⟨hw', hkey, hcolon, hitem⟩ := hentry
  rw [← append_assoc]
  exact .mk (blank_append hw hw') hkey hcolon hitem

theorem padded_members {w text : Str} {entries : List (Str × Json)} (hw : D.Blank w)
    (hentries : D.Members V text entries) : D.Members V (w ++ text) entries := by
  cases hentries with
  | last hentry hw' =>
      rw [← append_assoc]
      exact .last (padded_member hw hentry) hw'
  | cons hentry hw' hrest =>
      rw [← append_assoc]
      exact .cons (padded_member hw hentry) hw' hrest

end Blanks

/-! ## Larger dialects and larger budgets -/

section Mono

variable {D D' : Dialect} {V V' : Str → Json → Prop}

/-- A dialect that accepts whatever another does. -/
structure Dialect.Below (D D' : Dialect) : Prop where
  blank : D.blank = true → D'.blank = true
  strict : D'.strict = true → D.strict = true
  escape : ∀ word c, D.escape word c → D'.escape word c

namespace Dialect.Below

variable (h : D.Below D')
include h

theorem blank_mono {w : Str} (hw : D.Blank w) : D'.Blank w :=
  fun c hc => ⟨h.blank (hw c hc).1, (hw c hc).2⟩

theorem body_mono {body s : Str} (hbody : D.Body body s) : D'.Body body s := by
  induction hbody with
  | nil => exact .nil
  | plain hc _ ih => exact .plain hc ih
  | escape hword _ ih => exact .escape (h.escape _ _ hword) ih

theorem items_mono (hV : ∀ text value, V text value → V' text value) {text : Str}
    {items : List Json} (hitems : D.Items V text items) : D'.Items V' text items := by
  induction hitems with
  | last hitem hw => exact .last (hV _ _ hitem) (h.blank_mono hw)
  | cons hitem hw _ ih => exact .cons (hV _ _ hitem) (h.blank_mono hw) ih

theorem member_mono (hV : ∀ text value, V text value → V' text value) {text : Str}
    {entry : Str × Json} (hentry : D.Member V text entry) : D'.Member V' text entry := by
  obtain ⟨hw, hkey, hw', hitem⟩ := hentry
  exact .mk (h.blank_mono hw) (h.body_mono hkey) (h.blank_mono hw') (hV _ _ hitem)

theorem members_mono (hV : ∀ text value, V text value → V' text value) {text : Str}
    {entries : List (Str × Json)} (hentries : D.Members V text entries) :
    D'.Members V' text entries := by
  induction hentries with
  | last hentry hw => exact .last (h.member_mono hV hentry) (h.blank_mono hw)
  | cons hentry hw _ ih => exact .cons (h.member_mono hV hentry) (h.blank_mono hw) ih

theorem form_mono (hV : ∀ text value, V text value → V' text value) {text : Str} {value : Json}
    (hform : D.Form V text value) : D'.Form V' text value := by
  cases hform with
  | word hw hword => exact .word (h.blank_mono hw) hword
  | int hw hint => exact .int (h.blank_mono hw) hint
  | str hw hbody => exact .str (h.blank_mono hw) (h.body_mono hbody)
  | emptyArr hw hw' => exact .emptyArr (h.blank_mono hw) (h.blank_mono hw')
  | arr hw hitems => exact .arr (h.blank_mono hw) (h.items_mono hV hitems)
  | emptyObj hw hw' => exact .emptyObj (h.blank_mono hw) (h.blank_mono hw')
  | obj hw hentries hkeys =>
      exact .obj (h.blank_mono hw) (h.members_mono hV hentries) fun hstrict =>
        hkeys (h.strict hstrict)

/-- A text keeps its value in a larger dialect and with a larger budget. -/
theorem value_mono {budget budget' : ℕ} (hle : budget ≤ budget') {text : Str} {value : Json}
    (hvalue : D.Value budget text value) : D'.Value budget' text value := by
  induction budget generalizing budget' text value with
  | zero => exact hvalue.elim
  | succ budget ih =>
      obtain ⟨more, rfl⟩ := Nat.exists_eq_add_of_le hle
      have hnext : budget + 1 + more = (budget + more) + 1 := by omega
      rw [hnext]
      exact h.form_mono (fun _ _ => ih (Nat.le_add_right budget more)) hvalue

end Dialect.Below

end Mono

/-! ## The written texts -/

def written : Dialect where
  blank := false
  strict := true
  escape word c := writeChar c = '\\' :: word

theorem writeChar_cases (c : Char) :
    (writeChar c = [c] ∧ c ≠ '"' ∧ c ≠ '\\' ∧ 0x20 ≤ c.toNat) ∨
      ∃ word, writeChar c = '\\' :: word := by
  unfold writeChar
  split_ifs with hquote hback _ _ _ _ _ hcontrol
  any_goals exact Or.inr ⟨_, rfl⟩
  exact Or.inl ⟨rfl, hquote, hback, Nat.le_of_not_lt hcontrol⟩

theorem body_written (s : Str) : written.Body (s.flatMap writeChar) s := by
  induction s with
  | nil => exact .nil
  | cons c rest ih =>
      rw [flatMap_cons]
      rcases writeChar_cases c with ⟨hchar, hplain⟩ | ⟨word, hchar⟩
      · rw [hchar]
        exact .plain hplain ih
      · rw [hchar]
        exact .escape hchar ih

theorem parseI64_writeInt {value : ℤ} (h : -2 ^ 63 ≤ value ∧ value < 2 ^ 63) :
    parseI64 (writeInt value) = some value := by
  cases value with
  | ofNat n =>
      have hnone : stripStart ['-'] (decimal n) = none := by
        rw [Option.eq_none_iff_forall_ne_some]
        intro rest hrest
        have hmem : '-' ∈ decimal n := by
          rw [stripStart_eq_some_iff.mp hrest]
          exact mem_cons_self
        have hdigit := Nat.isDigit_of_mem_toDigits (by decide) (by decide) hmem
        exact absurd hdigit (by decide)
      rw [writeInt, parseI64, hnone]
      dsimp only
      rw [parseUnsigned_decimal (by have := h.2; rw [Int.ofNat_eq_natCast] at this; omega)]
      rfl
  | negSucc n =>
      have hsome : stripStart ['-'] ('-' :: decimal (n + 1)) = some (decimal (n + 1)) :=
        stripStart_eq_some_iff.mpr rfl
      rw [writeInt, parseI64, hsome]
      dsimp only
      rw [parseUnsigned_decimal (by have := h.1; rw [Int.negSucc_eq] at this; omega)]
      rw [Option.map_some, Int.negSucc_eq]
      rfl

theorem items_written {V : Str → Json → Prop} {items : List Json} (hne : items ≠ [])
    (hV : ∀ item ∈ items, V (write item) item) :
    written.Items V (writeItems items ++ [']']) items := by
  induction items with
  | nil => exact absurd rfl hne
  | cons item rest ih =>
      rw [forall_mem_cons] at hV
      cases rest with
      | nil => exact .last hV.1 (blank_nil _)
      | cons next rest =>
          rw [writeItems, append_assoc, cons_append]
          exact .cons hV.1 (blank_nil _) (ih (cons_ne_nil _ _) hV.2)

theorem members_written {V : Str → Json → Prop} {entries : List (Str × Json)} (hne : entries ≠ [])
    (hV : ∀ entry ∈ entries, V (write entry.2) entry.2) :
    written.Members V (writeEntries entries ++ ['}']) entries := by
  induction entries with
  | nil => exact absurd rfl hne
  | cons entry rest ih =>
      obtain ⟨key, item⟩ := entry
      rw [forall_mem_cons] at hV
      have hmember : written.Member V (writeString key ++ ':' :: write item) (key, item) :=
        .mk (blank_nil _) (body_written key) (blank_nil _) hV.1
      cases rest with
      | nil => exact .last hmember (blank_nil _)
      | cons next rest =>
          have htext : writeEntries ((key, item) :: next :: rest) ++ ['}'] =
              (writeString key ++ ':' :: write item) ++
                ([] ++ ',' :: (writeEntries (next :: rest) ++ ['}'])) := by
            rw [writeEntries]
            simp
          rw [htext]
          exact .cons hmember (blank_nil _) (ih (cons_ne_nil _ _) hV.2)

/-- The text of a value stands for it, with as much budget as it is nested. -/
theorem value_write {value : Json} {budget : ℕ} (hvalue : WellFormed value)
    (hnesting : nesting value < budget) : written.Value budget (write value) value := by
  induction budget generalizing value with
  | zero => exact absurd hnesting (Nat.not_lt_zero _)
  | succ budget ih =>
      cases hvalue with
      | null => exact .word (blank_nil _) (.head _)
      | bool value =>
          cases value with
          | true => exact .word (blank_nil _) (.tail _ (.head _))
          | false => exact .word (blank_nil _) (.tail _ (.tail _ (.head _)))
      | int h => exact .int (blank_nil _) (parseI64_writeInt h)
      | str value => exact .str (blank_nil _) (body_written value)
      | @arr items h =>
          rw [write]
          rcases eq_nil_or_concat items with rfl | ⟨init, last, hconcat⟩
          · exact .emptyArr (blank_nil _) (blank_nil _)
          · refine .arr (blank_nil _) (items_written (by simp [hconcat]) fun item hitem => ?_)
            have hlt := nesting_lt_of_mem hitem
            rw [nesting] at hnesting
            exact ih (h item hitem) (by omega)
      | @obj entries hsorted h =>
          rw [write]
          have hmap : Json.obj entries = Json.ofMap (OrdMap.ofList entries) := by
            have := OrdMap.ofList_entries (⟨entries, hsorted⟩ : OrdMap Str Json)
            rw [this]
            rfl
          rcases eq_nil_or_concat entries with rfl | ⟨init, last, hconcat⟩
          · exact .emptyObj (blank_nil _) (blank_nil _)
          · rw [hmap]
            refine .obj (blank_nil _) (members_written (by simp [hconcat]) fun entry hentry => ?_)
              fun _ => hsorted.imp ne_of_lt
            have hlt := nesting_lt_of_mem_entries hentry
            rw [nesting] at hnesting
            exact ih (h entry hentry) (by omega)

end Bran.Document.Json
