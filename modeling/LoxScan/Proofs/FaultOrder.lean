import LoxScan.Proofs.Positions

/-!
# Faults in order of position

Faults are told in the order of their elements, and a diagnostic is placed where its fault was
noticed. For a stray character that is where the element starts; for an open string it is where the
element ends, which may be many lines after the quote that opens it. The order of the diagnostics is
the order of their positions all the same: an open string is the last element, so nothing is noticed
after it, and everything else is noticed at its own start, before the next element.

* **`before_advance`**: a text moves a position on, along its line or to a later one.
* **`pairwise_lay`**: in a row of elements what is noticed in an earlier one is noticed before what
  is noticed in a later one.
* **`pairwise_precedes`**: so the diagnostics of a scan are in strict order of position.
* **`not_openString_of_mem_dropLast`**: and none but the last of them is an open string.
-/

namespace LoxScan

open Utf8

-- ── The order of positions ──────────

/-- A diagnostic comes before another by its line, or on the same line by its column. -/
def Diagnostic.Precedes (a b : Diagnostic) : Prop :=
  a.position.1 < b.position.1 ∨ a.position.1 = b.position.1 ∧ a.position.2 < b.position.2

theorem Diagnostic.positionLE_of_precedes {a b : Diagnostic} (h : a.Precedes b) :
    positionLE a b = true := by
  rw [positionLE_iff]
  rcases h with line | ⟨line, column⟩
  · exact Or.inl line
  · exact Or.inr ⟨line, Nat.le_of_lt column⟩

namespace Position

/-- A position comes before another by its line, or on the same line by its column. -/
def Before (p q : Position) : Prop :=
  p.line < q.line ∨ p.line = q.line ∧ p.column < q.column

variable {p q r : Position}

theorem Before.trans (h : p.Before q) (later : q.Before r) : p.Before r := by
  rw [Before] at h later ⊢
  omega

theorem before_next (within : p.lineStart ≤ p.offset) (c : Char) : p.Before (p.next c) := by
  rw [next]
  split
  case isTrue => exact Or.inl (Nat.lt_succ_self p.line)
  case isFalse =>
      have positive := Char.utf8Size_pos c
      refine Or.inr ⟨rfl, ?_⟩
      show p.offset - p.lineStart + 1 < p.offset + c.utf8Size - p.lineStart + 1
      omega

/-- A text moves a position on, along its line or to a later one. -/
theorem before_advance (within : p.lineStart ≤ p.offset) {text : List Char}
    (nonempty : text ≠ []) :
    p.Before (p.advance text) := by
  induction text generalizing p with
  | nil => exact absurd rfl nonempty
  | cons c text ih =>
      have first := before_next within c
      rw [advance_cons]
      cases text with
      | nil => exact first
      | cons d text =>
          exact first.trans (ih (lineStart_le_offset_next within c) (List.cons_ne_nil d text))

/-- Whatever a text is, it does not move a position back. -/
theorem eq_or_before_advance (within : p.lineStart ≤ p.offset) (text : List Char) :
    p.advance text = p ∨ p.Before (p.advance text) := by
  cases text with
  | nil => exact Or.inl rfl
  | cons c text => exact Or.inr (before_advance within (List.cons_ne_nil c text))

end Position

/-- Nothing is left after an open string, so it is the last element. -/
theorem Element.Tiled.eq_nil_of_openString {body : List Char} {es : List Element}
    (h : Tiled (.openString body :: es)) : es = [] := by
  cases h with
  | cons _ ends tiled =>
      cases tiled with
      | nil => rfl
      | cons good _ _ => exact absurd (List.append_eq_nil_iff.1 ends).1 good.text_ne_nil

-- ── Where faults are noticed ────────

namespace Placed

/-- The position at which the fault of an element is noticed, if it is malformed. -/
def noticed? (q : Placed) : Option Position :=
  match q.element with
  | .stray _ => some q.start
  | .openString _ => some q.stop
  | _ => none

/-- Nothing is noticed in a row before the row begins. -/
theorem eq_or_before_of_noticed? {p : Position} (within : p.lineStart ≤ p.offset)
    {es : List Element}
    {q : Placed} (h : q ∈ lay p es) {n : Position} (hn : q.noticed? = some n) :
    n = p ∨ p.Before n := by
  obtain ⟨before, after, -, start⟩ := exists_of_mem_lay h
  obtain ⟨e, s⟩ := q
  obtain rfl : s = p.advance (before.flatMap Element.text) := start
  cases e with
  | stray c =>
      obtain rfl := Option.some.inj hn
      exact Position.eq_or_before_advance within _
  | openString body =>
      obtain rfl := Option.some.inj hn
      rw [stop, ← Position.advance_append]
      exact Position.eq_or_before_advance within _
  | _ => exact nomatch hn

/-- **Rows.** What is noticed in an earlier element is noticed before what is noticed in a later
one. -/
theorem pairwise_lay {es : List Element} (tiled : Element.Tiled es) {p : Position}
    (within : p.lineStart ≤ p.offset) :
    (lay p es).Pairwise fun q r =>
      ∀ m, q.noticed? = some m → ∀ n, r.noticed? = some n → m.Before n := by
  induction tiled generalizing p with
  | nil => exact List.Pairwise.nil
  | @cons e es good ends tiled ih =>
      have later := Position.lineStart_le_offset within e.text
      refine List.pairwise_cons.2 ⟨?_, ih later⟩
      intro r hr m hm n hn
      have moved : p.Before (p.advance e.text) := Position.before_advance within good.text_ne_nil
      have start : p.Before n := by
        rcases eq_or_before_of_noticed? later hr hn with rfl | beyond
        · exact moved
        · exact moved.trans beyond
      cases e with
      | stray c =>
          obtain rfl := Option.some.inj hm
          exact start
      | openString body =>
          obtain rfl : es = [] := (Element.Tiled.cons good ends tiled).eq_nil_of_openString
          exact nomatch hr
      | _ => exact nomatch hm

/-- Only the last element of a row is an open string. -/
theorem pairwise_not_openString {es : List Element} (tiled : Element.Tiled es) (p : Position) :
    (lay p es).Pairwise fun q _ => ∀ body, q.element ≠ .openString body := by
  induction tiled generalizing p with
  | nil => exact List.Pairwise.nil
  | @cons e es good ends tiled ih =>
      refine List.pairwise_cons.2 ⟨?_, ih _⟩
      rintro r hr body rfl
      obtain rfl : es = [] := (Element.Tiled.cons good ends tiled).eq_nil_of_openString
      exact nomatch hr

end Placed

-- ── The diagnostics of a scan ───────

namespace Scan

variable {source : List Char}

/-- The diagnostics of a scan are related in order if the elements in which they are found are. -/
theorem pairwise_diagnostics {R : Diagnostic → Diagnostic → Prop}
    {S : Placed → Placed → Prop}
    (row : (Placed.lay .origin (Element.tile source)).Pairwise S)
    (found : ∀ q ∈ Placed.lay .origin (Element.tile source),
      ∀ r ∈ Placed.lay .origin (Element.tile source), S q r →
        ∀ f, Finding.ofPlaced? q = some (.fault f) → ∀ g,
          Finding.ofPlaced? r = some (.fault g) →
          R f.toDiagnostic g.toDiagnostic) : (ofList source).diagnostics.Pairwise R := by
  refine List.pairwise_map.2 (List.pairwise_filterMap.2 (List.pairwise_filterMap.2 ?_))
  refine row.imp_of_mem ?_
  intro q r hq hr related a ha b hb f hf g hg
  cases a with
  | token t => exact nomatch hf
  | fault f' =>
      cases b with
      | token t => exact nomatch hg
      | fault g' =>
          obtain rfl := Option.some.inj hf
          obtain rfl := Option.some.inj hg
          exact found q hq r hr related _ ha _ hb

/-- Below the largest word the words for a position are its line and its column. -/
theorem toNat_saturate_advance {text : List Char} (short : byteLength text < Word.largest) :
    (Word.saturate (Position.origin.advance text).line).toNat =
      (Position.origin.advance text).line ∧
      (Word.saturate (Position.origin.advance text).column).toNat =
        (Position.origin.advance text).column := by
  have line := Position.line_le text
  have column := Position.column_le text
  exact ⟨Word.toNat_saturate_of_le (by omega), Word.toNat_saturate_of_le (by omega)⟩

/-- A diagnostic has the line and the column at which its fault was noticed. -/
theorem position_of_fault (short : byteLength source < Word.largest) {q : Placed}
    (hq : q ∈ Placed.lay .origin (Element.tile source)) {f : Fault}
    (found : Finding.ofPlaced? q = some (.fault f)) :
    ∃ n, q.noticed? = some n ∧ f.toDiagnostic.position = (n.line, n.column) := by
  obtain ⟨before, after, whole, between⟩ := Placed.between_of_mem_lay hq
  rw [whole, byteLength_append] at short
  rcases Finding.cases_of_fault found with ⟨c, he, rfl⟩ | ⟨body, he, rfl⟩
  · have start : byteLength before < Word.largest := by
      rw [byteLength_append] at short
      omega
    obtain ⟨line, column⟩ := toNat_saturate_advance start
    refine ⟨q.start, by rw [Placed.noticed?, he], ?_⟩
    rw [Fault.position_toDiagnostic, between.start]
    exact Prod.ext line column
  · obtain ⟨line, column⟩ :=
      toNat_saturate_advance (Nat.lt_of_le_of_lt (Nat.le_add_right ..) short)
    refine ⟨q.stop, by rw [Placed.noticed?, he], ?_⟩
    rw [Fault.position_toDiagnostic, between.stop]
    exact Prod.ext line column

/-- **Order.** The diagnostics of a scan are in strict order of position. -/
theorem pairwise_precedes (short : byteLength source < Word.largest) :
    (ofList source).diagnostics.Pairwise Diagnostic.Precedes := by
  have row := Placed.pairwise_lay (Element.tiled_tile source)
    (Nat.le_refl Position.origin.lineStart)
  refine pairwise_diagnostics row ?_
  intro q hq r hr ordered f hf g hg
  obtain ⟨m, hm, first⟩ := position_of_fault short hq hf
  obtain ⟨n, hn, second⟩ := position_of_fault short hr hg
  rw [Diagnostic.Precedes, first, second]
  exact ordered m hm n hn

/-- An open string can only be the last diagnostic of a scan. -/
theorem not_openString_of_mem_dropLast {d : Diagnostic}
    (h : d ∈ (ofList source).diagnostics.dropLast) : d.code.map Code.text ≠ some "E0001" := by
  have row := Placed.pairwise_not_openString (Element.tiled_tile source) Position.origin
  have ordered :
      (ofList source).diagnostics.Pairwise fun a _ => a.code.map Code.text ≠ some "E0001" := by
    refine pairwise_diagnostics row ?_
    intro q _ r _ closed f hf _ _
    rcases Finding.cases_of_fault hf with ⟨c, -, rfl⟩ | ⟨body, he, -⟩
    · show some "E0002" ≠ some "E0001"
      decide
    · exact absurd he (closed body)
  have nonempty : (ofList source).diagnostics ≠ [] := by
    intro empty
    rw [empty] at h
    exact nomatch h
  rw [← List.dropLast_concat_getLast nonempty] at ordered
  exact (List.pairwise_append.1 ordered).2.2 d h _ (List.mem_singleton.2 rfl)

end Scan

end LoxScan
