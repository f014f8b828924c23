/-!
# Searching for a byte

A byte can be looked for in a row of bytes from the front, from the back, or all over the row. How a
search goes about it is its own affair, for it may well look at many bytes at once. What it gives is
not: the offsets in the row at which the byte stands (`ByteSearch.Exact`), and this leaves no
choice.

* **`Exact.unique`**: two exact searches give the same.
* **`exact_byByte`**: looking at one byte after the other is exact, so it stands for every exact
  search.
* **`takeWhile_of_first?`**, **`last?_append`**, **`length_all`**: what the three give, by the row
  alone.
-/

namespace LoxScan

/-- A way to look for a byte in a row of bytes. -/
structure ByteSearch where
  /-- The offset of the first place at which it stands. -/
  first? : UInt8 → List UInt8 → Option Nat
  /-- The offset of the last place. -/
  last? : UInt8 → List UInt8 → Option Nat
  /-- The offsets of all places, from the front to the back. -/
  all : UInt8 → List UInt8 → List Nat

namespace ByteSearch

/-- A search gives the first, the last and all places at which the byte stands. -/
structure Exact (find : ByteSearch) : Prop where
  first : ∀ b bytes i, find.first? b bytes = some i ↔
    bytes[i]? = some b ∧ ∀ j < i, bytes[j]? ≠ some b
  last : ∀ b bytes i, find.last? b bytes = some i ↔
    bytes[i]? = some b ∧ ∀ j, i < j → bytes[j]? ≠ some b
  mem_all : ∀ b bytes i, i ∈ find.all b bytes ↔ bytes[i]? = some b
  ordered : ∀ b bytes, (find.all b bytes).Pairwise (· < ·)

/-- The search that looks at one byte after the other. -/
def byByte : ByteSearch where
  first? b bytes := bytes.idxOf? b
  last? b bytes := (bytes.reverse.idxOf? b).map (bytes.length - 1 - ·)
  all b bytes := (bytes.zipIdx.filter (·.1 == b)).map (·.2)

-- ── Exact searches ──────────────────

/-- What an exact search gives is fixed. -/
theorem Exact.unique {find other : ByteSearch} (h : find.Exact) (h' : other.Exact) :
    find = other := by
  have first : find.first? = other.first? := by
    funext b bytes
    refine Option.ext fun i => ?_
    rw [h.first, h'.first]
  have last : find.last? = other.last? := by
    funext b bytes
    refine Option.ext fun i => ?_
    rw [h.last, h'.last]
  have all : find.all = other.all := by
    funext b bytes
    have distinct {l : List Nat} (order : l.Pairwise (· < ·)) : l.Nodup :=
      order.imp Nat.ne_of_lt
    have members := (List.perm_ext_iff_of_nodup (distinct (h.ordered b bytes))
      (distinct (h'.ordered b bytes))).2 fun i => by rw [h.mem_all, h'.mem_all]
    exact members.eq_of_pairwise (fun i j _ _ less more => absurd more (Nat.lt_asymm less))
      (h.ordered b bytes) (h'.ordered b bytes)
  cases find
  cases other
  congr

theorem first_byByte (b : UInt8) (bytes : List UInt8) (i : Nat) :
    byByte.first? b bytes = some i ↔ bytes[i]? = some b ∧ ∀ j < i, bytes[j]? ≠ some b := by
  show bytes.idxOf? b = some i ↔ _
  rw [List.idxOf?_eq_some_iff]
  constructor
  · rintro ⟨short, stands, others⟩
    refine ⟨List.getElem?_eq_some_iff.2 ⟨short, stands⟩, fun j before found => ?_⟩
    obtain ⟨_, there⟩ := List.getElem?_eq_some_iff.1 found
    exact others j before there
  · rintro ⟨found, others⟩
    obtain ⟨short, stands⟩ := List.getElem?_eq_some_iff.1 found
    refine ⟨short, stands, fun j before there => others j before ?_⟩
    exact List.getElem?_eq_some_iff.2 ⟨Nat.lt_trans before short, there⟩

theorem last_byByte (b : UInt8) (bytes : List UInt8) (i : Nat) :
    byByte.last? b bytes = some i ↔
      bytes[i]? = some b ∧ ∀ j, i < j → bytes[j]? ≠ some b := by
  have mirrored {k : Nat} (short : k < bytes.length) :
      bytes.reverse[bytes.length - 1 - k]? = bytes[k]? := by
    rw [List.getElem?_reverse (by omega)]
    congr 1
    omega
  have inside {k : Nat} (found : bytes[k]? = some b) : k < bytes.length :=
    (List.getElem?_eq_some_iff.1 found).1
  show (byByte.first? b bytes.reverse).map _ = some i ↔ _
  rw [Option.map_eq_some_iff]
  constructor
  · rintro ⟨k, found, rfl⟩
    obtain ⟨stands, others⟩ := (first_byByte b bytes.reverse k).1 found
    have short := (List.getElem?_eq_some_iff.1 stands).1
    rw [List.length_reverse] at short
    rw [List.getElem?_reverse short] at stands
    refine ⟨stands, fun j after there => ?_⟩
    have beyond := inside there
    exact others (bytes.length - 1 - j) (by omega) ((mirrored beyond).trans there)
  · rintro ⟨stands, others⟩
    have short := inside stands
    refine ⟨bytes.length - 1 - i,
      (first_byByte b bytes.reverse _).2 ⟨(mirrored short).trans stands, ?_⟩,
      by omega⟩
    intro j before there
    rw [List.getElem?_reverse (by omega)] at there
    exact others (bytes.length - 1 - j) (by omega) there

/-- Looking at one byte after the other is exact. -/
theorem exact_byByte : byByte.Exact where
  first := first_byByte
  last := last_byByte
  mem_all b bytes i := by
    show i ∈ (bytes.zipIdx.filter (·.1 == b)).map (·.2) ↔ _
    rw [List.mem_map]
    constructor
    · rintro ⟨⟨x, k⟩, found, rfl⟩
      obtain ⟨placed, equal⟩ := List.mem_filter.1 found
      rw [← eq_of_beq equal]
      exact List.mem_zipIdx_iff_getElem?.1 placed
    · intro stands
      exact ⟨(b, i), List.mem_filter.2 ⟨List.mem_zipIdx_iff_getElem?.2 stands,
        beq_self_eq_true b⟩, rfl⟩
  ordered b bytes := by
    have whole : (bytes.zipIdx.map (·.2)).Pairwise (· < ·) := by
      rw [List.zipIdx_map_snd]
      exact List.pairwise_lt_range'
    exact whole.sublist (List.filter_sublist.map _)

-- ── What is found byte by byte ──────

section ByByte

variable {b : UInt8} {bytes : List UInt8} {i : Nat}

/-- The bytes in front of the first place are those before any other byte. -/
theorem takeWhile_of_first? (found : byByte.first? b bytes = some i) :
    bytes.takeWhile (· ≠ b) = bytes.take i ∧ i ≤ bytes.length := by
  obtain ⟨short, first⟩ := List.findIdx?_eq_some_iff_findIdx_eq.1 found
  have class_eq : (fun x => !decide (x ≠ b)) = (· == b) := by
    funext x
    rw [decide_not, Bool.not_not]
    rfl
  rw [List.takeWhile_eq_take_findIdx_not, class_eq, first]
  exact ⟨rfl, Nat.le_of_lt short⟩

theorem takeWhile_of_first?_eq_none (missing : byByte.first? b bytes = none) :
    bytes.takeWhile (· ≠ b) = bytes := by
  have lacks : b ∉ bytes := List.idxOf?_eq_none_iff.1 missing
  have all : ∀ x ∈ bytes, decide (x ≠ b) = true :=
    fun x hx => decide_eq_true (ne_of_mem_of_not_mem hx lacks)
  have kept : (bytes ++ []).takeWhile (· ≠ b) = _ := List.takeWhile_append_of_pos all
  rwa [List.takeWhile_nil, List.append_nil] at kept

/-- The last place in two rows is in the second one, or else in the first. -/
theorem last?_append (b : UInt8) (x y : List UInt8) :
    byByte.last? b (x ++ y) = ((byByte.last? b y).map (x.length + ·)).or (byByte.last? b x) := by
  show ((x ++ y).reverse.findIdx? (· == b)).map _ =
    (((y.reverse.findIdx? (· == b)).map _).map _).or ((x.reverse.findIdx? (· == b)).map _)
  rw [List.reverse_append, List.findIdx?_append, Option.map_or, Option.map_map, Option.map_map,
    List.length_append, List.length_reverse]
  congr 1
  · refine Option.map_congr fun k found => ?_
    have short := (List.findIdx?_eq_some_iff_findIdx_eq.1 found).1
    rw [List.length_reverse] at short
    show x.length + y.length - 1 - k = x.length + (y.length - 1 - k)
    omega
  · congr 1
    funext k
    show x.length + y.length - 1 - (k + y.length) = x.length - 1 - k
    omega

/-- There are as many places as there are such bytes. -/
theorem length_all (b : UInt8) (bytes : List UInt8) :
    (byByte.all b bytes).length = bytes.count b := by
  show ((bytes.zipIdx.filter (·.1 == b)).map (·.2)).length = _
  calc ((bytes.zipIdx.filter (·.1 == b)).map (·.2)).length
    _ = bytes.zipIdx.countP ((· == b) ∘ Prod.fst) := by
        rw [List.length_map, List.countP_eq_length_filter]
        rfl
    _ = (bytes.zipIdx.map Prod.fst).countP (· == b) := List.countP_map.symm
    _ = bytes.count b := by
        rw [List.zipIdx_map_fst]
        rfl

end ByByte

end ByteSearch

end LoxScan
