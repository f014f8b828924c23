import LoxScan.Proofs.Encoding
import LoxScan.Proofs.Positions

/-!
# Where malformed text can be cut

Decoding looks ahead: whether a byte still belongs to the piece before it is only seen when it is
read. But it belongs there only if it is a continuation byte, and those are beyond ASCII. So before
an ASCII byte every piece has come to its end, malformed or not, and the bytes before it and the
bytes from it on can be decoded apart. And where a piece has come to its end, what was decoded up to
there depends on no later byte.

Hence lines are lines: a line feed stands for itself wherever it is, whatever is malformed around
it, and nothing else is decoded to one. The lines of a damaged text are counted in its bytes.

* **`continue?_exchange`**: what follows a piece can be exchanged for what does not go on with it.
* **`decodeLossy_append_newline`**: so a text can be cut at a line feed.
* **`exists_cut`**: wherever decoded text is cut, there is a cut of the bytes that makes it.
* **`lineFeeds_decodeLossy`**: decoding neither adds line feeds nor takes any away.
-/

namespace LoxScan.Utf8

-- ── Lead bytes ──────────────────────

/-- Continuation bytes are beyond ASCII. Only an ASCII byte is a lead byte without any; if another
one holds no bits itself, then the byte after it holds some of the upper ones. -/
theorem cases_of_lead? {b : UInt8} {lead : Lead} (h : lead? b = some lead) :
    0x80 ≤ lead.least ∧ lead.greatest ≤ 0xBF ∧
      ((b < 0x80 ∧ lead.continuations = 0 ∧ lead.value = b.toNat) ∨
        (0x80 ≤ b ∧ lead.continuations ≠ 0 ∧
          (1 ≤ lead.value ∨ 0x90 ≤ lead.least))) := by
  have every :
    ∀ n < 256, ∀ l ∈ lead? (UInt8.ofNat n), 0x80 ≤ l.least ∧ l.greatest ≤ 0xBF ∧
      ((UInt8.ofNat n < 0x80 ∧ l.continuations = 0 ∧ l.value = (UInt8.ofNat n).toNat) ∨
        (0x80 ≤ UInt8.ofNat n ∧ l.continuations ≠ 0 ∧
          (1 ≤ l.value ∨ 0x90 ≤ l.least))) := by
    decide +kernel
  have this := every b.toNat b.toNat_lt
  rw [UInt8.ofNat_toNat] at this
  exact this lead h

-- ── Pieces and what follows them ────

section Exchange

variable {n value : Nat} {least greatest : UInt8} {used rest later : List UInt8}

/-- Nothing is read on exactly if what follows does not begin with a byte that fits. -/
theorem continue?_succ_eq_self_iff {read : Option Nat} :
    continue? (n + 1) least greatest value rest = (read, rest) ↔
      read = none ∧ ∀ b, rest.head? = some b → ¬ (least ≤ b ∧ b ≤ greatest) := by
  cases rest with
  | nil => simp [continue?, eq_comm]
  | cons b rest =>
      by_cases fits : least ≤ b ∧ b ≤ greatest
      · have fewer := length_continue?_le n 0x80 0xBF (value * 64 + b.toNat % 64) rest
        rw [continue?, if_pos fits]
        refine ⟨?_, fun stops => absurd fits (stops.2 b rfl)⟩
        intro unread
        rw [unread, List.length_cons] at fewer
        exact absurd fewer (Nat.not_succ_le_self _)
      · rw [continue?, if_neg fits]
        constructor
        · intro unread
          refine ⟨(Prod.mk.inj unread).1.symm, ?_⟩
          intro x hx
          obtain rfl := Option.some.inj hx
          exact fits
        · rintro ⟨rfl, -⟩
          rfl

/-- **Exchange.** Reading ends where it did if what follows there begins as before, or with an ASCII
byte, or is nothing at all. -/
theorem continue?_exchange {read : Option Nat} (high : 0x80 ≤ least)
    (h : continue? n least greatest value (used ++ rest) = (read, rest))
    (head : ∀ b, later.head? = some b → rest.head? = some b ∨ b < 0x80) :
    continue? n least greatest value (used ++ later) = (read, later) := by
  induction used generalizing n least greatest value with
  | nil =>
      rw [List.nil_append] at h ⊢
      cases n with
      | zero =>
          rw [continue?] at h ⊢
          rw [(Prod.mk.inj h).1]
      | succ n =>
          obtain ⟨unread, stops⟩ := continue?_succ_eq_self_iff.1 h
          refine continue?_succ_eq_self_iff.2 ⟨unread, ?_⟩
          rintro b hb ⟨low, above⟩
          rcases head b hb with boundary | ascii
          · exact stops b boundary ⟨low, above⟩
          · exact absurd (UInt8.le_trans high low) (UInt8.not_le.2 ascii)
  | cons b used ih =>
      -- A byte was read on, for something of what there was is left out of the rest.
      have shorter : b :: used ++ rest ≠ rest := by
        intro unread
        have lengths := congrArg List.length unread
        rw [List.length_append, List.length_cons] at lengths
        omega
      cases n with
      | zero =>
          rw [continue?] at h
          exact absurd (Prod.mk.inj h).2 shorter
      | succ n =>
          rw [List.cons_append, continue?] at h ⊢
          split at h
          case isTrue fits =>
            rw [if_pos fits]
            exact ih (by decide) h
          case isFalse => exact absurd (Prod.mk.inj h).2 shorter

theorem next_exchange {b : UInt8} {c : Option Char} (h : next b (used ++ rest) = (c, rest))
    (head : ∀ b, later.head? = some b → rest.head? = some b ∨ b < 0x80) :
    next b (used ++ later) = (c, later) := by
  rw [next] at h ⊢
  split at h
  case h_1 =>
    obtain rfl : used = [] := List.append_left_eq_self.1 (Prod.mk.inj h).2
    rw [← (Prod.mk.inj h).1]
    rfl
  case h_2 lead hl =>
    obtain ⟨read, left⟩ := Prod.mk.inj h
    have whole := continue?_exchange (cases_of_lead? hl).1 (Prod.ext rfl left) head
    show ((continue? _ _ _ _ (used ++ later)).1.map Char.ofNat, _) = _
    rw [whole, ← read]

end Exchange

theorem exists_used_continue? {least : UInt8} (high : 0x80 ≤ least) (n : Nat) (greatest : UInt8)
    (value : Nat) (bytes : List UInt8) :
    ∃ used, bytes = used ++ (continue? n least greatest value bytes).2 ∧
      ∀ b ∈ used, 0x80 ≤ b := by
  fun_induction continue? n least greatest value bytes with
  | case1 => exact ⟨[], rfl, fun _ inside => absurd inside List.not_mem_nil⟩
  | case2 => exact ⟨[], rfl, fun _ inside => absurd inside List.not_mem_nil⟩
  | case3 n least greatest value b rest fits ih =>
      obtain ⟨used, cut, beyond⟩ := ih (by decide)
      refine ⟨b :: used, congrArg (b :: ·) cut, ?_⟩
      intro x hx
      rcases List.mem_cons.1 hx with rfl | hx
      · exact UInt8.le_trans high fits.1
      · exact beyond x hx
  | case4 => exact ⟨[], rfl, fun _ inside => absurd inside List.not_mem_nil⟩

/-- What a piece takes after its first byte is beyond ASCII. -/
theorem exists_used (b : UInt8) (rest : List UInt8) :
    ∃ used, rest = used ++ (next b rest).2 ∧ ∀ x ∈ used, 0x80 ≤ x := by
  rw [next]
  split
  case h_1 => exact ⟨[], rfl, fun _ inside => absurd inside List.not_mem_nil⟩
  case h_2 lead hl => exact exists_used_continue? (cases_of_lead? hl).1 ..

-- ── Line feeds ──────────────────────

theorem le_of_continue? {n value code : Nat} {least greatest : UInt8} {bytes : List UInt8}
    (h : (continue? n least greatest value bytes).1 = some code) : value ≤ code := by
  fun_induction continue? n least greatest value bytes with
  | case1 => exact Nat.le_of_eq (Option.some.inj h)
  | case2 => cases h
  | case3 n least greatest value b rest fits ih =>
      have later := ih h
      omega
  | case4 => cases h

/-- What takes more than one byte is beyond the line feed. -/
theorem lt_of_continue? {n value code : Nat} {least greatest : UInt8} {bytes : List UInt8}
    (more : n ≠ 0) (most : greatest ≤ 0xBF) (wide : 1 ≤ value ∨ 0x90 ≤ least)
    (h : (continue? n least greatest value bytes).1 = some code) : 10 < code := by
  cases n with
  | zero => exact absurd rfl more
  | succ n =>
      cases bytes with
      | nil => cases h
      | cons b bytes =>
          rw [continue?] at h
          split at h
          case isTrue fits =>
            have bits := le_of_continue? h
            have low : least.toNat ≤ b.toNat := fits.1
            have above : b.toNat ≤ 191 := Nat.le_trans fits.2 most
            rcases wide with wide | wide
            · omega
            · have upper : 144 ≤ least.toNat := wide
              omega
          case isFalse => cases h

theorem next_newline (rest : List UInt8) : next 10 rest = (some '\n', rest) :=
  rfl

/-- No other byte begins a line feed. -/
theorem ne_newline_of_next {b : UInt8} (h : b ≠ 10) (rest : List UInt8) :
    (next b rest).1 ≠ some '\n' := by
  have value {code : Nat} (other : code ≠ 10) : Char.ofNat code ≠ '\n' := by
    intro decoded
    by_cases valid : code.isValidChar
    · rw [Char.ofNat, dif_pos valid] at decoded
      exact other (congrArg Char.toNat decoded)
    · rw [Char.ofNat, dif_neg valid] at decoded
      exact absurd decoded (by decide)
  intro newline
  rw [next] at newline
  split at newline
  case h_1 => cases newline
  case h_2 lead hl =>
    obtain ⟨code, read, decoded⟩ := Option.map_eq_some_iff.1 newline
    refine value ?_ decoded
    rcases (cases_of_lead? hl).2 with ⟨most, ⟨-, alone, own⟩ | ⟨-, others, wide⟩⟩
    · rw [alone, own, continue?] at read
      rintro rfl
      exact h (UInt8.toNat_inj.1 (Option.some.inj read))
    · exact Nat.ne_of_gt (lt_of_continue? others most wide read)

theorem decodeLossy_cons (b : UInt8) (rest : List UInt8) :
    decodeLossy (b :: rest) = (next b rest).1.getD replacement :: decodeLossy (next b rest).2 := by
  rw [decodeLossy, pieces_cons]
  rfl

/-- **Line feeds.** Decoding neither adds any nor takes any away. -/
theorem lineFeeds_decodeLossy (bytes : List UInt8) :
    lineFeeds (encode (decodeLossy bytes)) = lineFeeds bytes := by
  fun_induction pieces bytes with
  | case1 => rw [decodeLossy_nil, encode_nil]
  | case2 b rest read ih =>
      rw [decodeLossy_cons, encode_cons, lineFeeds_append, ih]
      by_cases newline : b = 10
      · subst newline
        show 1 + lineFeeds rest = lineFeeds ([10] ++ rest)
        rw [lineFeeds_append]
        rfl
      · obtain ⟨used, cut, beyond⟩ := exists_used b rest
        have other : read.1.getD replacement ≠ '\n' := by
          have never := ne_newline_of_next newline rest
          cases found : read.1 with
          | none => decide
          | some c =>
              rintro rfl
              exact never found
        have flat : lineFeeds (b :: used) = 0 := by
          refine List.count_eq_zero.2 ?_
          intro inside
          rcases List.mem_cons.1 inside with feed | inside
          · exact newline feed.symm
          · exact absurd (beyond 10 inside) (by decide)
        have taken : b :: rest = b :: used ++ read.2 := congrArg (b :: ·) cut
        rw [taken, lineFeeds_append, flat]
        exact congrArg (· + _) (List.count_eq_zero.2 (newline_not_mem_utf8EncodeChar other))

-- ── Cuts ────────────────────────────

/-- Before an ASCII byte a text can be cut. -/
theorem pieces_append {a b : List UInt8} (ascii : ∀ x, b.head? = some x → x < 0x80) :
    pieces (a ++ b) = pieces a ++ pieces b := by
  fun_induction pieces a with
  | case1 => rw [List.nil_append, List.nil_append]
  | case2 first rest read ih =>
      obtain ⟨used, cut, -⟩ := exists_used first rest
      have alone : next first (used ++ read.2) = (read.1, read.2) := by rw [← cut]
      have whole : next first (rest ++ b) = (read.1, read.2 ++ b) := by
        rw [cut, List.append_assoc]
        refine next_exchange alone ?_
        intro x hx
        cases left : read.2 with
        | nil =>
            rw [left] at hx
            exact Or.inr (ascii x hx)
        | cons y left' =>
            rw [left] at hx
            exact Or.inl hx
      rw [List.cons_append, pieces_cons, whole, ih]
      rfl

/-- **Cuts at line feeds.** What is on one side of a line feed has no part in what is decoded on the
other. -/
theorem decodeLossy_append_newline (a b : List UInt8) :
    decodeLossy (a ++ 10 :: b) = decodeLossy a ++ '\n' :: decodeLossy b := by
  have ascii : ∀ x, (10 :: b).head? = some x → x < 0x80 := by
    intro x hx
    obtain rfl := Option.some.inj hx
    decide
  rw [decodeLossy, pieces_append ascii, pieces_cons, next_newline, List.map_append]
  rfl

/-- **Cuts of decoded text.** Each is made by a cut of the bytes. -/
theorem exists_cut {bytes : List UInt8} {u v : List Char} (h : decodeLossy bytes = u ++ v) :
    ∃ before after, bytes = before ++ after ∧ decodeLossy before = u ∧
      decodeLossy after = v := by
  induction u generalizing bytes with
  | nil => exact ⟨[], bytes, rfl, decodeLossy_nil, h⟩
  | cons c u ih =>
      cases bytes with
      | nil =>
          rw [decodeLossy_nil] at h
          exact nomatch h
      | cons b rest =>
          rw [decodeLossy_cons] at h
          obtain ⟨first, others⟩ := List.cons.inj h
          obtain ⟨before, after, cut, decoded, decoded'⟩ := ih others
          obtain ⟨used, taken, -⟩ := exists_used b rest
          have whole : next b (used ++ (next b rest).2) = ((next b rest).1, (next b rest).2) := by
            rw [← taken]
          have alone : next b (used ++ before) = ((next b rest).1, before) := by
            refine next_exchange whole ?_
            intro x hx
            rw [cut]
            obtain ⟨tail, rfl⟩ := List.head?_eq_some_iff.1 hx
            exact Or.inl rfl
          refine ⟨b :: (used ++ before), after, ?_, ?_, decoded'⟩
          · rw [List.cons_append, List.append_assoc, ← cut, ← taken]
          · rw [decodeLossy_cons, alone, decoded, first]

end LoxScan.Utf8
