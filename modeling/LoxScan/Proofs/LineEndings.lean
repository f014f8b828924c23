import LoxScan.Proofs.Placement
import Mathlib.Data.List.Forall2

/-!
# Line endings

The lines of a text may end in a line feed alone, or in a carriage return and a line feed. A scan
does not tell the two apart. The returns are blanks, but not all of them are scanned as such: one at
the end of a comment belongs to the comment, one in a string to the string. So the elements of the
two texts do not match one to one, and what does match is what is found in them.

Offsets differ from the first return on. Columns do not, because a return stands right before the
line feed that ends its line, where nothing is left on the line to be counted (`Position.Abreast`).

* **`tile_withReturns`**: the elements of a text with returns are those of the text, with returns.
* **`Abreast.advance`**: over the two texts lines and columns are counted alike.
* **`line_endings_agree`**: so the two texts have the same tokens, but for the returns in strings,
  and the same diagnostics, but for their spans.
-/

namespace LoxScan

open Utf8

-- ── Returns before line feeds ───────

/-- A text with a carriage return before every line feed. -/
def withReturns (text : List Char) : List Char :=
  text.flatMap fun c => if c = '\n' then ['\r', '\n'] else [c]

/-- A string with a carriage return before every line feed. -/
def returned (s : String) : String :=
  String.ofList (withReturns s.toList)

/-- The value of a string has the returns of its text. The value of a number has none. -/
def Literal.withReturns : Literal → Literal
  | string s => string (returned s)
  | number d => number d

namespace Element

/-- Of the elements other than line feeds, strings alone go over line ends. -/
def withReturns : Element → Element
  | string body => string (LoxScan.withReturns body)
  | openString body => openString (LoxScan.withReturns body)
  | e => e

/-- A row of elements with the returns of its text. A return at the end of a comment belongs to the
comment, and any other that is not in a string is a blank. -/
def rowWithReturns : List Element → List Element
  | [] => []
  | comment body :: blank '\n' :: es => comment (body ++ ['\r']) :: blank '\n' :: rowWithReturns es
  | blank '\n' :: es => blank '\r' :: blank '\n' :: rowWithReturns es
  | e :: es => e.withReturns :: rowWithReturns es

end Element

@[simp] theorem withReturns_nil : withReturns [] = [] :=
  rfl

theorem withReturns_newline (text : List Char) :
    withReturns ('\n' :: text) = '\r' :: '\n' :: withReturns text :=
  rfl

theorem withReturns_cons {c : Char} (h : c ≠ '\n') (text : List Char) :
    withReturns (c :: text) = c :: withReturns text := by
  rw [withReturns, List.flatMap_cons, if_neg h]
  rfl

theorem withReturns_append (a b : List Char) :
    withReturns (a ++ b) = withReturns a ++ withReturns b :=
  List.flatMap_append

/-- A text within a line has no returns to get. -/
theorem withReturns_of_not_mem {text : List Char} (h : '\n' ∉ text) :
    withReturns text = text := by
  induction text with
  | nil => rfl
  | cons c text ih =>
      obtain ⟨other, rest⟩ := not_or.1 (mt List.mem_cons.2 h)
      rw [withReturns_cons (Ne.symm other), ih rest]

/-- No quotes are gained. -/
theorem not_mem_withReturns {c : Char} (other : c ≠ '\r') {text : List Char} (h : c ∉ text) :
    c ∉ withReturns text := by
  intro inside
  obtain ⟨d, hd, made⟩ := List.mem_flatMap.1 inside
  split at made
  case isTrue newline =>
    subst newline
    rcases List.mem_cons.1 made with rfl | made
    · exact other rfl
    · exact h (List.mem_singleton.1 made ▸ hd)
  case isFalse => exact h (List.mem_singleton.1 made ▸ hd)

/-- A text with returns begins with one, or as it begins without. -/
theorem cons_of_withReturns {text more : List Char} {c : Char} (h : withReturns text = c :: more) :
    c = '\r' ∨ ∃ rest, text = c :: rest ∧ withReturns rest = more := by
  cases text with
  | nil => exact nomatch h
  | cons d text =>
      by_cases newline : d = '\n'
      · subst newline
        exact Or.inl (List.cons.inj h).1.symm
      · rw [withReturns_cons newline] at h
        obtain ⟨rfl, rest⟩ := List.cons.inj h
        exact Or.inr ⟨text, rfl, rest⟩

-- ── Elements with returns ───────────

namespace Element

/-- An element that begins with a line feed is one. -/
theorem WellFormed.eq_blank {e : Element} (good : e.WellFormed) {t : List Char}
    (h : e.text = '\n' :: t) :
    e = blank '\n' := by
  have step := next_eq_of_endsBefore good (endsBefore_nil e) h
  rw [next_of_isBlank rfl] at step
  exact (congrArg Prod.fst step).symm

/-- The returns of an element are those of its text. -/
theorem WellFormed.text_withReturns {e : Element} (good : e.WellFormed) (other : e ≠ blank '\n') :
    e.withReturns.text = LoxScan.withReturns e.text := by
  -- All elements but strings lie within a line.
  cases e with
  | punctuator p => cases p <;> rfl
  | string body =>
      show '"' :: LoxScan.withReturns body ++ ['"'] = LoxScan.withReturns ('"' :: body ++ ['"'])
      rw [withReturns_append, withReturns_cons (by decide)]
      rfl
  | number whole fraction =>
      obtain ⟨-, wholeDigits, fractionDigits⟩ := good
      refine (withReturns_of_not_mem ?_).symm
      intro newline
      cases fraction with
      | nil => exact absurd (wholeDigits _ newline) (by decide)
      | cons d fraction =>
          rcases List.mem_append.1 newline with newline | newline
          · exact absurd (wholeDigits _ newline) (by decide)
          · rcases List.mem_cons.1 newline with point | newline
            · exact absurd point (by decide)
            · exact absurd (fractionDigits _ newline) (by decide)
  | word letters =>
      obtain ⟨c, rest, rfl, first, inside⟩ := good
      refine (withReturns_of_not_mem ?_).symm
      intro newline
      rcases List.mem_cons.1 newline with rfl | newline
      · exact absurd first (by decide)
      · exact absurd (inside _ newline) (by decide)
  | comment body =>
      show '/' :: '/' :: body = LoxScan.withReturns ('/' :: '/' :: body)
      rw [withReturns_cons (by decide), withReturns_cons (by decide), withReturns_of_not_mem good]
  | blank c =>
      have flat : c ≠ '\n' := fun newline => other (congrArg blank newline)
      exact (withReturns_cons flat []).symm
  | openString body => exact (withReturns_cons (by decide) body).symm
  | stray c =>
      have flat : c ≠ '\n' := by
        rintro rfl
        exact absurd good.1 (by decide)
      exact (withReturns_cons flat []).symm

theorem WellFormed.withReturns {e : Element} (good : e.WellFormed) : e.withReturns.WellFormed := by
  cases e with
  | string body => exact not_mem_withReturns (by decide) good
  | openString body => exact not_mem_withReturns (by decide) good
  | _ => exact good

/-- A text with returns avoids what the text avoids, if that is no return. -/
theorem Avoids.withReturns {p : Char → Bool} {after : List Char} (h : Avoids p after)
    (excluded : p '\r' = false) : Avoids p (LoxScan.withReturns after) := by
  intro c hc
  obtain ⟨more, begins⟩ := List.head?_eq_some_iff.1 hc
  rcases cons_of_withReturns begins with rfl | ⟨rest, rfl, -⟩
  · exact excluded
  · exact h c rfl

/-- No element but a comment goes on over a return. -/
theorem EndsBefore.withReturns {e : Element} {after : List Char} (h : e.EndsBefore after)
    (other : ∀ body, e ≠ comment body) :
    e.withReturns.EndsBefore (LoxScan.withReturns after) := by
  cases e with
  | punctuator p =>
      exact ⟨fun longer => (h.1 longer).withReturns rfl,
        fun slash => (h.2 slash).withReturns rfl⟩
  | number whole fraction =>
      cases fraction with
      | nil =>
          refine ⟨h.1.withReturns rfl, ?_⟩
          intro d more begins
          rcases cons_of_withReturns begins with point | ⟨rest, rfl, second⟩
          · exact absurd point (by decide)
          · rcases cons_of_withReturns second with rfl | ⟨rest, rfl, -⟩
            · decide
            · exact h.2 d rest rfl
      | cons d fraction => exact Avoids.withReturns h rfl
  | word letters => exact Avoids.withReturns h rfl
  | comment body => exact absurd rfl (other body)
  | openString body =>
      obtain rfl : after = [] := h
      rfl
  | string body => trivial
  | blank c => trivial
  | stray c => trivial

/-- A comment in a row ends before a line feed or is the last element. -/
theorem Tiled.after_comment {body : List Char} {es : List Element}
    (h : Tiled (comment body :: es)) :
    es = [] ∨ ∃ later, es = blank '\n' :: later := by
  cases h with
  | cons _ ends later =>
      cases later with
      | nil => exact Or.inl rfl
      | @cons e es good _ _ =>
          obtain ⟨c, t, begins⟩ := List.exists_cons_of_ne_nil good.text_ne_nil
          have ends : Avoids (· ≠ '\n') (e.text ++ es.flatMap text) := ends
          rw [begins] at ends
          obtain rfl : c = '\n' := by simpa using ends c rfl
          exact Or.inr ⟨es, by rw [good.eq_blank begins]⟩

/-- The return before the line feed after a comment belongs to the comment. -/
theorem WellFormed.text_comment_newline {body : List Char} (good : (comment body).WellFormed) :
    (comment (body ++ ['\r'])).text ++ ['\n'] =
      LoxScan.withReturns ((comment body).text ++ ['\n']) := by
  have flat : LoxScan.withReturns (comment body).text = (comment body).text :=
    (good.text_withReturns nofun).symm
  rw [withReturns_append, flat]
  simp [text, withReturns_newline]

theorem flatMap_text_rowWithReturns {es : List Element} (h : Tiled es) :
    (rowWithReturns es).flatMap text = LoxScan.withReturns (es.flatMap text) := by
  fun_induction rowWithReturns es with
  | case1 => rfl
  | case2 body es ih =>
      cases h with
      | cons good _ later =>
          cases later with
          | cons _ _ later =>
              show (comment (body ++ ['\r'])).text ++ (['\n'] ++ (rowWithReturns es).flatMap text) =
                LoxScan.withReturns ((comment body).text ++ (['\n'] ++ es.flatMap text))
              rw [← List.append_assoc, ← List.append_assoc, good.text_comment_newline, ih later,
                ← withReturns_append]
  | case3 es ih =>
      cases h with
      | cons _ _ later =>
          show '\r' :: '\n' :: (rowWithReturns es).flatMap text = _
          rw [ih later]
          rfl
  | case4 e es _ other ih =>
      cases h with
      | cons good _ later =>
          rw [List.flatMap_cons, List.flatMap_cons, withReturns_append,
            good.text_withReturns other, ih later]

theorem Tiled.rowWithReturns {es : List Element} (h : Tiled es) : Tiled (rowWithReturns es) := by
  fun_induction Element.rowWithReturns es with
  | case1 => exact Tiled.nil
  | case2 body es ih =>
      cases h with
      | cons good _ later =>
          cases later with
          | cons _ _ later =>
              have flat : '\n' ∉ body ++ ['\r'] := by
                rw [List.mem_append, not_or]
                exact ⟨good, by decide⟩
              exact Tiled.cons flat (avoids_cons rfl) (Tiled.cons rfl trivial (ih later))
  | case3 es ih =>
      cases h with
      | cons _ _ later => exact Tiled.cons rfl trivial (Tiled.cons rfl trivial (ih later))
  | case4 e es unended _ ih =>
      have tiled := h
      cases h with
      | cons good ends later =>
          refine Tiled.cons good.withReturns ?_ (ih later)
          show e.withReturns.EndsBefore ((Element.rowWithReturns es).flatMap text)
          rw [flatMap_text_rowWithReturns later]
          cases es with
          | nil => exact endsBefore_nil _
          | cons f es =>
              refine ends.withReturns ?_
              rintro body rfl
              rcases tiled.after_comment with last | ⟨others, feed⟩
              · exact nomatch last
              · obtain ⟨rfl, rfl⟩ := List.cons.inj feed
                exact unended body es rfl rfl

/-- **Elements.** The elements of a text with returns are those of the text, with returns. -/
theorem tile_withReturns (source : List Char) :
    tile (LoxScan.withReturns source) = rowWithReturns (tile source) := by
  have tiled := tiled_tile source
  have whole := flatMap_text_rowWithReturns tiled
  rw [flatMap_text_tile] at whole
  exact tile_eq_iff.2 ⟨whole, tiled.rowWithReturns⟩

/-- One return of three is a blank. The last comment has none, for no line feed ends it. -/
example :
    rowWithReturns [.comment ['c'], .blank '\n', .string ['s', '\n'], .blank '\n', .comment ['d']] =
      [.comment ['c', '\r'], .blank '\n', .string ['s', '\r', '\n'], .blank '\r', .blank '\n',
        .comment ['d']] := by decide

end Element

-- ── Positions abreast ───────────────

namespace Position

/-- Two positions on lines of the same number, with as many bytes before them on these. -/
structure Abreast (p q : Position) : Prop where
  line : q.line = p.line
  within : q.offset + p.lineStart = p.offset + q.lineStart

variable {p q : Position}

theorem Abreast.column (h : p.Abreast q) : q.column = p.column := by
  have within := h.within
  rw [Position.column, Position.column]
  omega

/-- The bytes on a line before its end do not matter after it. -/
theorem Abreast.newline (h : q.line = p.line) : (p.next '\n').Abreast (q.next '\n') :=
  ⟨congrArg (· + 1) h, Nat.add_comm ..⟩

theorem Abreast.next (h : p.Abreast q) (c : Char) : (p.next c).Abreast (q.next c) := by
  by_cases newline : c = '\n'
  · subst newline
    exact Abreast.newline h.line
  · have within := h.within
    rw [Position.next, Position.next, if_neg newline, if_neg newline]
    refine ⟨h.line, ?_⟩
    show q.offset + c.utf8Size + p.lineStart = p.offset + c.utf8Size + q.lineStart
    omega

/-- **Counting.** Over a text and over that text with returns lines and columns are counted
alike. -/
theorem Abreast.advance (h : p.Abreast q) (text : List Char) :
    (p.advance text).Abreast (q.advance (withReturns text)) := by
  induction text generalizing p q with
  | nil => exact h
  | cons c text ih =>
      by_cases newline : c = '\n'
      · subst newline
        -- The return is counted on a line that ends right after it.
        exact ih (Abreast.newline h.line)
      · rw [withReturns_cons newline]
        exact ih (h.next c)

end Position

-- ── What is found in a text with returns ──

/-- A token of a text with returns: its text and its value have got the returns, and its span may be
any. -/
structure Token.Returned (t u : Token) : Prop where
  kind : u.kind = t.kind
  line : u.line = t.line
  lexeme : u.lexeme = returned t.lexeme
  literal : u.literal = t.literal.map Literal.withReturns

/-- A diagnostic of a text with returns: only its span may be another. -/
def Diagnostic.Returned (d e : Diagnostic) : Prop :=
  e = { d with span := e.span }

def Fault.Returned (f g : Fault) : Prop :=
  g = { f with span := g.span }

/-- What is found in the one text and in the other, a token for a token and a fault for a fault. -/
inductive Finding.Returned : Finding → Finding → Prop
  | token {t u : Token} : t.Returned u → Returned (token t) (token u)
  | fault {f g : Fault} : f.Returned g → Returned (fault f) (fault g)

theorem Finding.Returned.token? {f g : Finding} (h : f.Returned g) :
    Option.Rel Token.Returned f.token? g.token? := by
  cases h with
  | token returned => exact Option.Rel.some returned
  | fault => exact Option.Rel.none

theorem Finding.Returned.fault? {f g : Finding} (h : f.Returned g) :
    Option.Rel Fault.Returned f.fault? g.fault? := by
  cases h with
  | token => exact Option.Rel.none
  | fault returned => exact Option.Rel.some returned

theorem Fault.Returned.toDiagnostic {f g : Fault} (h : f.Returned g) :
    f.toDiagnostic.Returned g.toDiagnostic := by
  rw [Diagnostic.Returned, h]
  rfl

namespace Placed

variable {p q : Position}

/-- Faults that are noticed at positions abreast. -/
theorem fault_returned (h : p.Abreast q) (a b : Placed) (cause : Fault.Cause) :
    (a.fault cause p).Returned (b.fault cause q) := by
  rw [Fault.Returned, fault, fault, h.line, h.column]

/-- What is found in an element with returns at a position abreast. -/
theorem ofPlaced?_withReturns (h : p.Abreast q) {e : Element} (good : e.WellFormed)
    (other : e ≠ .blank '\n') :
    Option.Rel Finding.Returned (Finding.ofPlaced? ⟨e, p⟩)
      (Finding.ofPlaced? ⟨e.withReturns, q⟩) := by
  have text := good.text_withReturns other
  have stop := h.advance e.text
  rw [← text] at stop
  have lexeme : String.ofList e.withReturns.text = returned (String.ofList e.text) := by
    rw [returned, String.toList_ofList, text]
  have line := congrArg Word.saturate h.line
  cases e with
  | string body =>
      have value : Literal.string (String.ofList (withReturns body)) =
          (Literal.string (String.ofList body)).withReturns := by
        rw [Literal.withReturns, returned, String.toList_ofList]
      exact Option.Rel.some (Finding.Returned.token ⟨rfl, line, lexeme, congrArg some value⟩)
  | comment body => exact Option.Rel.none
  | blank c => exact Option.Rel.none
  | openString body => exact Option.Rel.some (Finding.Returned.fault (fault_returned stop _ _ _))
  | stray c => exact Option.Rel.some (Finding.Returned.fault (fault_returned h _ _ _))
  | _ => exact Option.Rel.some (Finding.Returned.token ⟨rfl, line, lexeme, rfl⟩)

/-- **Rows.** From positions abreast on, the same is found in a row of elements with returns and
without. -/
theorem findings_rowWithReturns (h : p.Abreast q) {es : List Element} (tiled : Element.Tiled es) :
    List.Forall₂ Finding.Returned ((lay p es).filterMap Finding.ofPlaced?)
      ((lay q (Element.rowWithReturns es)).filterMap Finding.ofPlaced?) := by
  fun_induction Element.rowWithReturns es generalizing p q with
  | case1 => exact List.Forall₂.nil
  | case2 body es ih =>
      cases tiled with
      | cons good _ later =>
          cases later with
          | cons _ _ later =>
              have after := h.advance ((Element.comment body).text ++ ['\n'])
              rw [← good.text_comment_newline, Position.advance_append,
                Position.advance_append] at after
              exact ih after later
  | case3 es ih =>
      cases tiled with
      | cons _ _ later => exact ih (Position.Abreast.newline h.line) later
  | case4 e es _ other ih =>
      cases tiled with
      | cons good _ later =>
          have related := ofPlaced?_withReturns h good other
          have after := h.advance e.text
          rw [← good.text_withReturns other] at after
          have rest := ih after later
          rw [lay_cons, lay_cons, List.filterMap_cons, List.filterMap_cons]
          generalize Finding.ofPlaced? ⟨e, p⟩ = found,
            Finding.ofPlaced? ⟨e.withReturns, q⟩ = found' at related ⊢
          cases related with
          | none => exact rest
          | some returned => exact List.Forall₂.cons returned rest

end Placed

-- ── Scans of texts with returns ─────

namespace Scan

variable (source : List Char)

/-- The end of a text with returns is abreast of the end of the text. -/
theorem finish_withReturns :
    (ofList source).finish.Abreast (ofList (withReturns source)).finish :=
  Position.Abreast.advance ⟨rfl, rfl⟩ source

theorem findings_withReturns :
    List.Forall₂ Finding.Returned (ofList source).findings
      (ofList (withReturns source)).findings := by
  rw [ofList, ofList, Element.tile_withReturns]
  exact Placed.findings_rowWithReturns ⟨rfl, rfl⟩ (Element.tiled_tile source)

theorem tokens_withReturns :
    List.Forall₂ Token.Returned (ofList source).tokens (ofList (withReturns source)).tokens := by
  have last : (ofList source).eof.Returned (ofList (withReturns source)).eof :=
    ⟨rfl, congrArg Word.saturate (finish_withReturns source).line, rfl, rfl⟩
  have found :=
    List.rel_filterMap (fun _ _ returned => Finding.Returned.token? returned)
      (findings_withReturns source)
  exact List.rel_append found (List.Forall₂.cons last List.Forall₂.nil)

theorem diagnostics_withReturns :
    List.Forall₂ Diagnostic.Returned (ofList source).diagnostics
      (ofList (withReturns source)).diagnostics := by
  have found :=
    List.rel_filterMap (fun _ _ returned => Finding.Returned.fault? returned)
      (findings_withReturns source)
  exact List.rel_map (fun _ _ returned => Fault.Returned.toDiagnostic returned) found

end Scan

/-- **Line endings.** A source and the same source with a carriage return before every line feed
have as many tokens, of the same kinds and on the same lines. Their texts and the values of strings
differ by the returns in them, and the values of numbers do not differ. The diagnostics are the
same, but for their spans. -/
theorem line_endings_agree (source : String) :
    List.Forall₂ Token.Returned (Scan.ofString source).tokens
      (Scan.ofString (returned source)).tokens ∧
      List.Forall₂ Diagnostic.Returned (Scan.ofString source).diagnostics
        (Scan.ofString (returned source)).diagnostics := by
  rw [Scan.ofString, Scan.ofString, returned, String.toList_ofList]
  exact ⟨Scan.tokens_withReturns source.toList, Scan.diagnostics_withReturns source.toList⟩

end LoxScan
