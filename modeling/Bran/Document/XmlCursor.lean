import Bran.Document.Xml

/-!
# Cursors over the events of a part

`Cursor` of `docx.rs`, which walks the events that the XML reader accepted, after `resolve_names`
has put other names into them.  Whoever consumes the `Open` of an element finds its `Close`.
-/

namespace Bran.Document.Docx

open Xml Validation Nesting List

/-! ## What the source computes -/

/-- `Cursor`: the events from its place on. -/
abbrev Cursor := List Event

abbrev Descendant := ℕ × Str × List (Str × Str)

namespace Cursor

def next : Cursor → Except Refusal (Event × Cursor)
  | [] => .error .malformedXml
  | event :: rest => .ok (event, rest)

/-- The loop of `Cursor::elements`. -/
def elementsFrom : ℕ → List Descendant → Cursor → Except Refusal (List Descendant × Cursor)
  | 0, found, cursor => .ok (found, cursor)
  | _ + 1, _, [] => .error .malformedXml
  | depth + 1, found, .opening name attributes :: rest =>
      elementsFrom (depth + 2) (found ++ [(depth + 1, name, attributes)]) rest
  | depth + 1, found, .closing :: rest => elementsFrom depth found rest
  | depth + 1, found, .text _ :: rest => elementsFrom (depth + 1) found rest

def elements (cursor : Cursor) : Except Refusal (List Descendant × Cursor) :=
  elementsFrom 1 [] cursor

def skip (cursor : Cursor) : Except Refusal Cursor := do
  let (_, rest) ← elements cursor
  return rest

theorem length_elementsFrom {depth : ℕ} {found found' : List Descendant} {cursor rest : Cursor}
    (h : elementsFrom depth found cursor = .ok (found', rest)) : rest.length ≤ cursor.length := by
  induction cursor generalizing depth found with
  | nil =>
      cases depth with
      | zero =>
          obtain ⟨-, rfl⟩ := Prod.mk.inj (Except.ok.inj h)
          exact le_rfl
      | succ depth => cases h
  | cons event cursor ih =>
      cases depth with
      | zero =>
          obtain ⟨-, rfl⟩ := Prod.mk.inj (Except.ok.inj h)
          exact le_rfl
      | succ depth =>
          cases event with
          | opening name attributes | closing | text value => exact (ih h).trans (Nat.le_succ _)

theorem length_skip {cursor rest : Cursor} (h : skip cursor = .ok rest) :
    rest.length ≤ cursor.length := by
  obtain ⟨⟨found, rest'⟩, helements, hrest⟩ := bind_eq_ok_iff.mp h
  obtain rfl := Except.ok.inj hrest
  exact length_elementsFrom helements

/-- The loop of `Cursor::text`. -/
def textFrom (content : Str) (cursor : Cursor) : Except Refusal (Str × Cursor) :=
  match cursor with
  | [] => .error .malformedXml
  | .closing :: rest => .ok (content, rest)
  | .text value :: rest => textFrom (content ++ value) rest
  | .opening _ _ :: rest =>
      match _h : skip rest with
      | .error refusal => .error refusal
      | .ok rest => textFrom content rest
termination_by cursor.length
decreasing_by
  · exact Nat.lt_succ_self _
  · exact Nat.lt_succ_of_le (length_skip _h)

def text (cursor : Cursor) : Except Refusal (Str × Cursor) := textFrom [] cursor

/-- `Cursor::peek_open`, with where it leaves the cursor. -/
def peekOpen (cursor : Cursor) : Option Str × Cursor :=
  let rest := cursor.dropWhile (·.role = .leaf)
  match rest with
  | .opening name _ :: _ => (some name, rest)
  | _ => (none, rest)

theorem peekOpen_rest (cursor : Cursor) :
    (peekOpen cursor).2 = cursor.dropWhile (·.role = .leaf) := by
  unfold peekOpen
  dsimp only
  split <;> rfl

/-! ## Walks over closed content -/

variable {inner : List Event}

theorem elementsFrom_content (h : Content Event.role inner) (depth : ℕ) (found : List Descendant)
    (rest : Cursor) : ∃ found',
      elementsFrom (depth + 1) found (inner ++ rest) = elementsFrom (depth + 1) found' rest := by
  induction h generalizing depth found rest with
  | nil => exact ⟨found, rfl⟩
  | @leaf l event h hevent ih =>
      obtain ⟨found', hfound⟩ := ih depth found (event :: rest)
      cases event with
      | text value => exact ⟨found', by rw [append_assoc]; exact hfound⟩
      | opening name attributes => cases hevent
      | closing => cases hevent
  | @group l inner first last h hinner hfirst hlast ih ihinner =>
      cases first with
      | opening name attributes =>
          cases last with
          | closing =>
              obtain ⟨found', hfound⟩ :=
                ih depth found (.opening name attributes :: (inner ++ .closing :: rest))
              obtain ⟨found'', hfound'⟩ := ihinner (depth + 1)
                (found' ++ [(depth + 1, name, attributes)]) (.closing :: rest)
              refine ⟨found'', ?_⟩
              calc elementsFrom (depth + 1) found
                    ((l ++ .opening name attributes :: (inner ++ [.closing])) ++ rest)
                  = elementsFrom (depth + 1) found
                      (l ++ .opening name attributes :: (inner ++ .closing :: rest)) := by simp
                _ = elementsFrom (depth + 2) (found' ++ [(depth + 1, name, attributes)])
                      (inner ++ .closing :: rest) := hfound
                _ = elementsFrom (depth + 2) found'' (.closing :: rest) := hfound'
                _ = elementsFrom (depth + 1) found'' rest := rfl
          | opening name attributes | text value => cases hlast
      | closing => cases hfirst
      | text value => cases hfirst

/-- `elements` goes through the `Close` of the element. -/
theorem elements_content (h : Content Event.role inner) (tail : Cursor) :
    ∃ found, elements (inner ++ .closing :: tail) = .ok (found, tail) := by
  obtain ⟨found, hfound⟩ := elementsFrom_content h 0 [] (.closing :: tail)
  refine ⟨found, hfound.trans ?_⟩
  simp only [elementsFrom]

theorem skip_content (h : Content Event.role inner) (tail : Cursor) :
    skip (inner ++ .closing :: tail) = .ok tail := by
  obtain ⟨found, hfound⟩ := elements_content h tail
  rw [skip, hfound]
  rfl

theorem textFrom_content (h : Content Event.role inner) (content : Str) (rest : Cursor) :
    ∃ content', textFrom content (inner ++ rest) = textFrom content' rest := by
  induction h generalizing content rest with
  | nil => exact ⟨content, rfl⟩
  | @leaf l event h hevent ih =>
      obtain ⟨content', hcontent⟩ := ih content (event :: rest)
      cases event with
      | text value =>
          refine ⟨content' ++ value, ?_⟩
          rw [append_assoc]
          refine hcontent.trans ?_
          rw [textFrom]
      | opening name attributes => cases hevent
      | closing => cases hevent
  | @group l inner first last h hinner hfirst hlast ih ihinner =>
      cases first with
      | opening name attributes =>
          cases last with
          | closing =>
              obtain ⟨content', hcontent⟩ :=
                ih content (.opening name attributes :: (inner ++ .closing :: rest))
              refine ⟨content', ?_⟩
              have hsplit : (l ++ .opening name attributes :: (inner ++ [.closing])) ++ rest =
                  l ++ .opening name attributes :: (inner ++ .closing :: rest) := by simp
              rw [hsplit, hcontent, textFrom]
              -- the element is skipped as a whole
              have hskip := skip_content hinner rest
              split
              · next heq => exact (nomatch heq.symm.trans hskip)
              · next heq => rw [Except.ok.inj (heq.symm.trans hskip)]
          | opening name attributes | text value => cases hlast
      | closing => cases hfirst
      | text value => cases hfirst

theorem text_content (h : Content Event.role inner) (tail : Cursor) :
    ∃ content, text (inner ++ .closing :: tail) = .ok (content, tail) := by
  obtain ⟨content, hcontent⟩ := textFrom_content h [] (.closing :: tail)
  refine ⟨content, hcontent.trans ?_⟩
  rw [textFrom]

/-- So far a walk has not closed more elements than it opened. -/
def InElement (passed : List Event) : Prop :=
  ∀ before, before <+: passed → closes Event.role before ≤ opens Event.role before

/-- Texts that are passed close nothing. -/
theorem InElement.append_texts {passed texts : List Event} (h : InElement passed)
    (htexts : ∀ event ∈ texts, event.role = .leaf) : InElement (passed ++ texts) := by
  intro before hbefore
  rcases prefix_or_prefix_of_prefix hbefore (prefix_append passed texts) with
    hbefore' | ⟨some, rfl⟩
  · exact h before hbefore'
  · have hsome : some <+: texts := (prefix_append_right_inj passed).mp hbefore
    have hclosed : closes Event.role some = 0 := by
      refine countP_eq_zero.mpr fun event hevent => ?_
      rw [htexts event (hsome.subset hevent)]
      exact nofun
    rw [closes_append, opens_append, hclosed]
    exact (h passed prefix_rfl).trans (Nat.le_add_right _ _)

/-- A walk inside an element is not at the end. -/
theorem next_of_content {inner passed left : List Event} {tail : Cursor}
    (h : Content Event.role inner) (heq : inner ++ .closing :: tail = passed ++ left)
    (hinside : InElement passed) : ∃ event after, next left = .ok (event, after) := by
  cases left with
  | cons event after => exact ⟨event, after, rfl⟩
  | nil =>
      rw [append_nil] at heq
      have hclosed := hinside (inner ++ [.closing]) ⟨tail, by rw [← heq]; simp⟩
      rw [opens_append, closes_append, h.balance] at hclosed
      exact absurd hclosed (by simp [opens, closes, Event.role])

/-- Nor is it behind the texts that `peek_open` passes. -/
theorem next_peekOpen_of_content {passed left : List Event} {tail : Cursor}
    (h : Content Event.role inner) (heq : inner ++ .closing :: tail = passed ++ left)
    (hinside : InElement passed) :
    ∃ event after, next (peekOpen left).2 = .ok (event, after) := by
  have htexts : ∀ event ∈ left.takeWhile (·.role = .leaf), event.role = .leaf := by
    intro event hevent
    simpa using mem_takeWhile_imp hevent
  rw [peekOpen_rest]
  refine @next_of_content _ _ _ tail h ?_ (hinside.append_texts htexts)
  rw [heq, append_assoc, takeWhile_append_dropWhile]

/-- Behind the `Open` of every element stands its content and its `Close`, and whatever walks over
it ends there. -/
theorem walks_of_content {events front : List Event} {name : Str} {attributes : List (Str × Str)}
    {rest : Cursor} (h : Content Event.role events)
    (heq : events = front ++ .opening name attributes :: rest) :
    ∃ inner tail, Content Event.role inner ∧ rest = inner ++ .closing :: tail ∧
      (∃ found, elements rest = .ok (found, tail)) ∧ skip rest = .ok tail ∧
      (∃ content, text rest = .ok (content, tail)) ∧
      ∀ passed left, rest = passed ++ left → InElement passed →
        (∃ event after, next left = .ok (event, after)) ∧
        ∃ event after, next (peekOpen left).2 = .ok (event, after) := by
  obtain ⟨inner, last, tail, hinner, hlast, rfl⟩ := h.matched _ _ _ heq rfl
  cases last with
  | closing =>
      exact ⟨inner, tail, hinner, rfl, elements_content hinner tail, skip_content hinner tail,
        text_content hinner tail, fun passed left hrest hinside =>
          ⟨next_of_content hinner hrest hinside, next_peekOpen_of_content hinner hrest hinside⟩⟩
  | opening name attributes => cases hlast
  | text value => cases hlast

end Cursor

open Cursor

/-- What the reader accepts is one well formed tree within the budgets, and under whatever names a
cursor reads it, the cursor that consumes an `Open` reaches its `Close`. -/
theorem walks_of_parse {limits : Limits} {tokenize : Str → List Token} {cancelled : Bool}
    {bytes : List UInt8} {events : List Event}
    (h : parse limits tokenize cancelled bytes = .ok events) :
    WellFormed limits events ∧
      ∀ renamed : List Event, renamed.map Event.role = events.map Event.role →
        ∀ front name attributes rest, renamed = front ++ .opening name attributes :: rest →
          ∃ inner tail, Content Event.role inner ∧ rest = inner ++ .closing :: tail ∧
            (∃ found, elements rest = .ok (found, tail)) ∧ skip rest = .ok tail ∧
            (∃ content, text rest = .ok (content, tail)) ∧
            ∀ passed left, rest = passed ++ left → InElement passed →
              (∃ event after, Cursor.next left = .ok (event, after)) ∧
              ∃ event after, Cursor.next (peekOpen left).2 = .ok (event, after) := by
  have hformed := wellFormed_of_parse h
  obtain ⟨name, attributes, inner, hinner, rfl⟩ := hformed.root
  have hcontent : Content Event.role (.opening name attributes :: (inner ++ [.closing])) :=
    Content.nil.group hinner rfl rfl
  refine ⟨hformed, fun renamed hrenamed front name attributes rest heq => ?_⟩
  exact walks_of_content (hcontent.of_map_eq hrenamed) heq

def twoTexts : List Token :=
  [.start ⟨['a'], ['a'], false, []⟩, .text ['b'] ['b'], .comment, .cdata ['c'], .ending]

/-- The pieces become one text. -/
theorem wellFormed_twoTexts :
    WellFormed .default [.opening ['a'] [], .text ['b', 'c'], .closing] := by
  have hparse : parse .default (fun _ => twoTexts) false [] =
      .ok [.opening ['a'] [], .text ['b', 'c'], .closing] := by
    decide +kernel
  exact (walks_of_parse hparse).1

end Bran.Document.Docx
