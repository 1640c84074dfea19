import Mathlib.Data.Prod.Lex
import CallAlign.Proofs.Source.LineTiling

/-!
# Lines and columns of offsets

The index finds the line of an offset by bisection and measures the column from the start of that
line, but not past its end. This file says what comes out, in terms of the bytes of the text.

**Theorem (`line_column_tell_offset`).** The line of an offset is the number of line breaks that end
at or before it. Line and column tell the offset, with one exception: the line feed of a pair is
taken for the carriage return in front of it. Offsets past the text count as its end.

The line of an offset is the last that starts at or before it, so the offset is either inside that
line, its end included, or inside the line break behind it (`exists_line_of_offset`). Of the line
breaks only a pair has an inside. That an offset inside a line is no line feed of a pair holds
because a pair is one break: no line starts between its two bytes (`endsBreak_of_isPairFeed`).

A search among the starts that may come upon the offset itself leads to the same line, whether it
does or tells where the offset would have to go (`lineOf_of_searched`). Lines and columns also keep
the order of offsets (`lineColumn_mono`).
-/

namespace CallAlign

/-! ## Pairs -/

/-- The byte at `offset` is a line feed with a carriage return right in front of it. -/
def IsPairFeed (bytes : List UInt8) (offset : Nat) : Prop :=
  0 < offset ∧ bytes[offset - 1]? = some 13 ∧ bytes[offset]? = some 10

instance (bytes : List UInt8) (offset : Nat) : Decidable (IsPairFeed bytes offset) :=
  inferInstanceAs (Decidable (_ ∧ _))

theorem isPairFeed_succ {bytes : List UInt8} {i : Nat} :
    IsPairFeed bytes (i + 1) ↔ bytes[i]? = some 13 ∧ bytes[i + 1]? = some 10 := by
  simp [IsPairFeed]

theorem not_isPairFeed_of_succ {bytes : List UInt8} {i : Nat} (h : IsPairFeed bytes (i + 1)) :
    ¬ IsPairFeed bytes i := by
  rintro ⟨-, -, hfeed⟩
  rw [(isPairFeed_succ.1 h).1] at hfeed
  cases hfeed

/-- No line break ends between the bytes of a pair. -/
theorem endsBreak_of_isPairFeed {bytes : List UInt8} {i : Nat} (h : IsPairFeed bytes (i + 1)) :
    endsBreak bytes i = false := by
  obtain ⟨hreturn, hfeed⟩ := isPairFeed_succ.1 h
  simp [endsBreak, hreturn, hfeed]

theorem mem_breakStops_iff {bytes : List UInt8} {stop : Nat} :
    stop ∈ breakStops bytes ↔ ∃ i < bytes.length, endsBreak bytes i = true ∧ i + 1 = stop := by
  simp [breakStops, breakStopsIn, and_assoc]

theorem breakStops_increasing (bytes : List UInt8) : (breakStops bytes).Pairwise (· < ·) := by
  rw [breakStops, breakStopsIn, List.pairwise_map]
  refine List.Pairwise.imp ?_ ((List.Ico.pairwise_lt 0 bytes.length).filter _)
  intro i j hlt
  exact Nat.succ_lt_succ hlt

/-! ## Offsets in a tiling -/

namespace Tiles

variable {bytes : List UInt8} {start i offset : Nat} {lines : List Line} {line : Line}

/-- An offset in front of the next line lies in its own line or behind the carriage return of the
pair that ends it. -/
theorem le_stop_or_isPairFeed (h : Tiles bytes start lines) (hline : lines[i]? = some line)
    (hoffset : offset ≤ bytes.length)
    (hnext : ∀ next, lines[i + 1]? = some next → offset < next.start) :
    offset ≤ line.stop ∨ offset = line.stop + 1 ∧ IsPairFeed bytes offset := by
  cases hlater : lines[i + 1]? with
  | none =>
    -- There is no next line, so this is the last one and reaches to the end of the text.
    have hi : i < lines.length := (List.getElem?_eq_some_iff.1 hline).1
    have hlast : lines.length - 1 = i := by
      have hlength := List.getElem?_eq_none_iff.1 hlater
      omega
    have hstop := h.getLast?
    rw [List.getLast?_eq_getElem?, hlast, hline, Option.map_some, Option.some_inj] at hstop
    exact .inl (hstop ▸ hoffset)
  | some next =>
    have hlt := hnext next hlater
    have hbreak := h.isLineBreak hline hlater
    generalize next.start = nextStart at hlt hbreak
    cases hbreak with
    | lineFeed => exact .inl (Nat.le_of_lt_succ hlt)
    | carriageReturn => exact .inl (Nat.le_of_lt_succ hlt)
    | pair ret feed =>
      by_cases hle : offset ≤ line.stop
      · exact .inl hle
      · have hoffset : offset = line.stop + 1 := by omega
        subst hoffset
        exact .inr ⟨rfl, isPairFeed_succ.2 ⟨ret, feed⟩⟩

/-- Up to its end, no offset of a line is the line feed of a pair. -/
theorem not_isPairFeed (h : Tiles bytes 0 lines) (hline : line ∈ lines)
    (hstart : line.start ≤ offset) (hstop : offset ≤ line.stop) : ¬ IsPairFeed bytes offset := by
  intro hpair
  obtain ⟨k, rfl⟩ := Nat.exists_eq_succ_of_ne_zero (Nat.ne_of_gt hpair.1)
  obtain ⟨-, -, hunbroken⟩ := h.mem hline
  by_cases hk : line.start ≤ k
  · exact (hunbroken k hk hstop).2 (isPairFeed_succ.1 hpair).1
  · -- The line starts at the line feed, where no line break has ended.
    have hhere : line.start = k + 1 := by omega
    have hstarts : line.start ∈ 0 :: breakStops bytes := h.starts ▸ List.mem_map_of_mem hline
    rw [hhere, List.mem_cons, mem_breakStops_iff] at hstarts
    rcases hstarts with hzero | ⟨j, -, hends, hj⟩
    · cases hzero
    · cases hj
      rw [endsBreak_of_isPairFeed hpair] at hends
      cases hends

end Tiles

/-! ## The line of an offset -/

/-- An answer to the search for `key` among entries in order: a place where it stands, or the place
where it would have to go. -/
inductive Searched (entries : List Nat) (key : Nat) : Except Nat Nat → Prop
  | found {place : Nat} (here : entries[place]? = some key) : Searched entries key (.ok place)
  | missing {place : Nat} (inside : place ≤ entries.length)
      (before : ∀ i entry, i < place → entries[i]? = some entry → entry < key)
      (behind : ∀ i entry, place ≤ i → entries[i]? = some entry → key < entry) :
      Searched entries key (.error place)

namespace LineIndex

/-- The line that an answer to the search among the starts leads to: the one that starts there, or
the one in front of the place where none does. -/
def answeredLine : Except Nat Nat → Nat
  | .ok line => line
  | .error place => place - 1

/-- The offset itself, or the end of the text for one past it. -/
def clamp (index : LineIndex) (offset : Nat) : Nat := min offset index.textLength

theorem clamp_le (index : LineIndex) (offset : Nat) : index.clamp offset ≤ index.textLength :=
  Nat.min_le_right ..

theorem clamp_of_le {index : LineIndex} {offset : Nat} (h : offset ≤ index.textLength) :
    index.clamp offset = offset := Nat.min_eq_left h

theorem clamp_mono (index : LineIndex) {a b : Nat} (h : a ≤ b) : index.clamp a ≤ index.clamp b := by
  unfold clamp
  omega

section

variable (bytes : List UInt8)

theorem starts_ofBytes : (ofBytes bytes).starts = 0 :: breakStops bytes :=
  (tiles_ofBytes bytes).starts

theorem starts_increasing : (ofBytes bytes).starts.Pairwise (· < ·) := by
  rw [starts_ofBytes, List.pairwise_cons]
  refine ⟨?_, breakStops_increasing bytes⟩
  intro stop hstop
  obtain ⟨i, -, -, rfl⟩ := mem_breakStops_iff.1 hstop
  exact Nat.succ_pos i

/-- A line in front of one that starts by an offset starts by it too. -/
theorem lines_sorted (offset : Nat) :
    (ofBytes bytes).lines.toList.Pairwise fun a b =>
      decide (b.start ≤ offset) = true → decide (a.start ≤ offset) = true := by
  have hincrease := starts_increasing bytes
  rw [starts, List.pairwise_map] at hincrease
  refine hincrease.imp ?_
  intro a b hlt hb
  rw [decide_eq_true_eq] at hb ⊢
  omega

/-- The first line starts by every offset, and any other where a line break ends. -/
theorem countP_lines (offset : Nat) :
    (ofBytes bytes).lines.toList.countP (fun line => line.start ≤ offset) =
      (breakStops bytes).countP (· ≤ offset) + 1 := by
  have hmap := List.countP_map (p := fun start => decide (start ≤ offset)) (f := Line.start)
    (l := (ofBytes bytes).lines.toList)
  rw [← starts, starts_ofBytes, List.countP_cons_of_pos (by simp)] at hmap
  exact hmap.symm

/-- **The line is a count.** The line of an offset is the number of line breaks that end at or
before it. -/
theorem lineOf_eq_countP (offset : Nat) :
    (ofBytes bytes).lineOf offset =
      (breakStops bytes).countP (· ≤ (ofBytes bytes).clamp offset) := by
  have hbisect : bisect ((ofBytes bytes).startsBy ((ofBytes bytes).clamp offset)) 0
      (ofBytes bytes).lines.size =
      (ofBytes bytes).lines.toList.countP fun line =>
        line.start ≤ (ofBytes bytes).clamp offset := by
    rw [← Array.length_toList]
    apply bisect_eq_countP (lines_sorted bytes _)
    intro i line hline
    rw [Array.getElem?_toList] at hline
    simp [startsBy, hline]
  rw [countP_lines] at hbisect
  rw [lineOf, ← clamp, hbisect, Nat.add_sub_cancel]

theorem lineOf_mono {a b : Nat} (h : a ≤ b) :
    (ofBytes bytes).lineOf a ≤ (ofBytes bytes).lineOf b := by
  have hclamp := (ofBytes bytes).clamp_mono h
  rw [lineOf_eq_countP, lineOf_eq_countP]
  apply List.countP_mono_left
  intro stop _ hstop
  rw [decide_eq_true_eq] at hstop ⊢
  exact Nat.le_trans hstop hclamp

theorem lineOf_lt_size (offset : Nat) :
    (ofBytes bytes).lineOf offset < (ofBytes bytes).lines.size := by
  rw [lineOf_eq_countP, ← Nat.succ_le_iff, Nat.succ_eq_add_one, ← countP_lines,
    ← Array.length_toList]
  exact List.countP_le_length

/-- The lines up to that of an offset are those that start at or before it. -/
theorem start_le_clamp_iff {bytes : List UInt8} {offset i : Nat} {line : Line}
    (hline : (ofBytes bytes).lines[i]? = some line) :
    line.start ≤ (ofBytes bytes).clamp offset ↔ i ≤ (ofBytes bytes).lineOf offset := by
  rw [← Array.getElem?_toList] at hline
  have hcount := lt_countP_iff (lines_sorted bytes ((ofBytes bytes).clamp offset)) hline
  rw [countP_lines, ← lineOf_eq_countP, decide_eq_true_eq] at hcount
  rw [← hcount, Nat.lt_succ_iff]

theorem le_clamp_iff_of_starts {bytes : List UInt8} {offset i start : Nat}
    (hstart : (ofBytes bytes).starts[i]? = some start) :
    start ≤ (ofBytes bytes).clamp offset ↔ i ≤ (ofBytes bytes).lineOf offset := by
  rw [starts, List.getElem?_map, Option.map_eq_some_iff] at hstart
  obtain ⟨line, hline, rfl⟩ := hstart
  rw [Array.getElem?_toList] at hline
  exact start_le_clamp_iff hline

theorem lineOf_lt_length_starts (offset : Nat) :
    (ofBytes bytes).lineOf offset < (ofBytes bytes).starts.length := by
  simpa [starts] using lineOf_lt_size bytes offset

theorem exists_searched (offset : Nat) :
    ∃ result, Searched (ofBytes bytes).starts ((ofBytes bytes).clamp offset) result := by
  by_cases hmem : (ofBytes bytes).clamp offset ∈ (ofBytes bytes).starts
  · obtain ⟨place, here⟩ := List.mem_iff_getElem?.1 hmem
    exact ⟨_, .found here⟩
  · refine ⟨_, .missing (lineOf_lt_length_starts bytes offset) ?_ ?_⟩
    · intro i start hi hstart
      have hle := (le_clamp_iff_of_starts hstart).2 (Nat.le_of_lt_succ hi)
      have hne : start ≠ (ofBytes bytes).clamp offset := by
        rintro rfl
        exact hmem (List.mem_of_getElem? hstart)
      exact Nat.lt_of_le_of_ne hle hne
    · intro i start hi hstart
      exact Nat.lt_of_not_le fun hle => Nat.not_le.2 hi ((le_clamp_iff_of_starts hstart).1 hle)

/-- Whatever a search among the starts answers, it leads to the line of the offset. -/
theorem lineOf_of_searched {bytes : List UInt8} {offset : Nat} {result : Except Nat Nat}
    (h : Searched (ofBytes bytes).starts ((ofBytes bytes).clamp offset) result) :
    (ofBytes bytes).lineOf offset = answeredLine result := by
  have hlt := lineOf_lt_length_starts bytes offset
  have hline := List.getElem?_eq_getElem hlt
  have hstart := (le_clamp_iff_of_starts hline).2 (Nat.le_refl _)
  cases h with
  | @found place here =>
    -- A line behind `place` starts past the offset, because the starts increase.
    have hplace := (le_clamp_iff_of_starts here).1 (Nat.le_refl _)
    obtain ⟨hlength, heq⟩ := List.getElem?_eq_some_iff.1 here
    have hbehind := List.pairwise_iff_getElem.1 (starts_increasing bytes) place _ hlength hlt
    show _ = place
    omega
  | @missing place inside before behind =>
    have hbefore : (ofBytes bytes).lineOf offset < place := by
      apply Nat.lt_of_not_le
      intro hle
      exact Nat.not_le.2 (behind _ _ hle hline) hstart
    have hlast := List.getElem?_eq_getElem (show place - 1 < (ofBytes bytes).starts.length by omega)
    have hle := (le_clamp_iff_of_starts hlast).1 (Nat.le_of_lt (before _ _ (by omega) hlast))
    show _ = place - 1
    omega

/-- An offset lies on its line or at the line feed of the pair that ends it. -/
theorem exists_line_of_offset (offset : Nat) :
    ∃ line, (ofBytes bytes).lines[(ofBytes bytes).lineOf offset]? = some line ∧
      line.start ≤ line.stop ∧ line.start ≤ (ofBytes bytes).clamp offset ∧
      ((ofBytes bytes).clamp offset ≤ line.stop ∧
          ¬ IsPairFeed bytes ((ofBytes bytes).clamp offset) ∨
        (ofBytes bytes).clamp offset = line.stop + 1 ∧
          IsPairFeed bytes ((ofBytes bytes).clamp offset)) := by
  have htiles := tiles_ofBytes bytes
  obtain ⟨line, hline⟩ :
      ∃ line, (ofBytes bytes).lines[(ofBytes bytes).lineOf offset]? = some line :=
    ⟨_, Array.getElem?_eq_getElem (lineOf_lt_size bytes offset)⟩
  have hstart := (start_le_clamp_iff hline).2 (Nat.le_refl _)
  have hget : (ofBytes bytes).lines.toList[(ofBytes bytes).lineOf offset]? = some line := by
    rw [Array.getElem?_toList, hline]
  have hmem := List.mem_of_getElem? hget
  refine ⟨line, hline, (htiles.mem hmem).1, hstart, ?_⟩
  have hnext : ∀ next,
      (ofBytes bytes).lines.toList[(ofBytes bytes).lineOf offset + 1]? = some next →
      (ofBytes bytes).clamp offset < next.start := by
    intro next hnext
    rw [Array.getElem?_toList] at hnext
    exact Nat.lt_of_not_le fun hle => Nat.not_succ_le_self _ ((start_le_clamp_iff hnext).1 hle)
  rcases htiles.le_stop_or_isPairFeed hget (clamp_le _ offset) hnext with hstop | hpair
  · exact .inl ⟨hstop, htiles.not_isPairFeed hmem hstart hstop⟩
  · exact .inr hpair

end

/-! ## Columns -/

theorem lineColumn_of_line {index : LineIndex} {offset : Nat} {line : Line}
    (hline : index.lines[index.lineOf offset]? = some line) :
    index.lineColumn offset =
      (index.lineOf offset, min (index.clamp offset) line.stop - line.start) := by
  simp [lineColumn, hline, clamp]

section

variable {bytes : List UInt8}

/-- The start of a line and a column on it add up to the offset, or to the one before the line feed
of a pair. -/
theorem start_add_column {offset : Nat} {line : Line}
    (hline : (ofBytes bytes).lines[(ofBytes bytes).lineOf offset]? = some line) :
    line.start + ((ofBytes bytes).lineColumn offset).2 =
      if IsPairFeed bytes ((ofBytes bytes).clamp offset) then (ofBytes bytes).clamp offset - 1
      else (ofBytes bytes).clamp offset := by
  obtain ⟨same, hsame, hle, hstart, hwhere⟩ := exists_line_of_offset bytes offset
  cases hline.symm.trans hsame
  rw [lineColumn_of_line hline]
  rcases hwhere with ⟨hstop, hpair⟩ | ⟨hstop, hpair⟩
  · rw [if_neg hpair, Nat.min_eq_left hstop, Nat.add_sub_cancel' hstart]
  · rw [if_pos hpair, hstop, Nat.min_eq_right (Nat.le_succ _), Nat.add_sub_cancel' hle]
    rfl

/-- Line and column keep the order of offsets. -/
theorem lineColumn_mono (bytes : List UInt8) {a b : Nat} (h : a ≤ b) :
    toLex ((ofBytes bytes).lineColumn a) ≤ toLex ((ofBytes bytes).lineColumn b) := by
  obtain ⟨line, hline, -⟩ := exists_line_of_offset bytes a
  obtain ⟨other, hother, -⟩ := exists_line_of_offset bytes b
  have hclamp := (ofBytes bytes).clamp_mono h
  rw [lineColumn_of_line hline, lineColumn_of_line hother, Prod.Lex.toLex_le_toLex]
  rcases Nat.lt_or_eq_of_le (lineOf_mono bytes h) with hlt | heq
  · exact .inl hlt
  · -- On one line the column grows with the offset, and stays at the end of the line.
    rw [heq, hother] at hline
    cases hline
    refine .inr ⟨heq, ?_⟩
    show min _ _ - _ ≤ min _ _ - _
    omega

/-- Both bytes of a pair are on one line. -/
theorem lineOf_of_isPairFeed {i : Nat} (hi : i + 1 ≤ (ofBytes bytes).textLength)
    (h : IsPairFeed bytes (i + 1)) : (ofBytes bytes).lineOf i = (ofBytes bytes).lineOf (i + 1) := by
  rw [lineOf_eq_countP, lineOf_eq_countP, clamp_of_le (Nat.le_of_succ_le hi), clamp_of_le hi]
  apply List.countP_congr
  intro stop hstop
  obtain ⟨j, -, hends, rfl⟩ := mem_breakStops_iff.1 hstop
  have hne : j ≠ i := by
    rintro rfl
    rw [endsBreak_of_isPairFeed h] at hends
    cases hends
  simp only [decide_eq_true_eq]
  omega

/-- Two offsets of a text share line and column only as the bytes of a pair. -/
theorem lineColumn_eq_iff {a b : Nat} (hlt : a < b) (hb : b ≤ (ofBytes bytes).textLength) :
    (ofBytes bytes).lineColumn a = (ofBytes bytes).lineColumn b ↔
      b = a + 1 ∧ IsPairFeed bytes b := by
  obtain ⟨line, hline, -⟩ := exists_line_of_offset bytes a
  obtain ⟨other, hother, -⟩ := exists_line_of_offset bytes b
  have hsumA := start_add_column hline
  have hsumB := start_add_column hother
  rw [clamp_of_le (by omega)] at hsumA
  rw [clamp_of_le hb] at hsumB
  constructor
  · intro heq
    have hsame : (ofBytes bytes).lineOf a = (ofBytes bytes).lineOf b := by
      rw [lineColumn_of_line hline, lineColumn_of_line hother] at heq
      exact (Prod.mk.inj heq).1
    rw [hsame, hother] at hline
    cases hline
    rw [heq, hsumB] at hsumA
    by_cases hpair : IsPairFeed bytes b
    · refine ⟨?_, hpair⟩
      have hpos := hpair.1
      rw [if_pos hpair] at hsumA
      split at hsumA
      · rename_i hpairA
        have hposA := hpairA.1
        omega
      · omega
    · rw [if_neg hpair] at hsumA
      split at hsumA <;> omega
  · rintro ⟨rfl, hpair⟩
    have hsame := lineOf_of_isPairFeed hb hpair
    rw [hsame, hother] at hline
    cases hline
    rw [if_neg (not_isPairFeed_of_succ hpair)] at hsumA
    rw [if_pos hpair] at hsumB
    refine Prod.ext ?_ ?_
    · rw [lineColumn_of_line hother, lineColumn_of_line (hsame ▸ hother)]
      exact hsame
    · omega

end

/-- Neither a line nor a column exceeds the length of the text. -/
theorem lineColumn_le (bytes : List UInt8) (offset : Nat) :
    ((ofBytes bytes).lineColumn offset).1 ≤ bytes.length ∧
      ((ofBytes bytes).lineColumn offset).2 ≤ bytes.length := by
  obtain ⟨line, hline, -⟩ := exists_line_of_offset bytes offset
  have hclamp : (ofBytes bytes).clamp offset ≤ bytes.length := clamp_le _ offset
  rw [lineColumn_of_line hline]
  constructor
  · show (ofBytes bytes).lineOf offset ≤ bytes.length
    rw [lineOf_eq_countP]
    exact Nat.le_trans List.countP_le_length (length_breakStops_le bytes)
  · show min _ _ - _ ≤ bytes.length
    omega

/-- **Line and column tell the offset.** Take any offset, or the end of the text if it lies past
it. Its line is the number of line breaks that end at or before it, and the one that every answer
to the search among the starts leads to; the line exists, and its start comes before everything the
column is measured to. The start of the line and the column add up to
the offset, or to the one before if it is that of a line feed in a pair. So of two offsets in a text
only the bytes of a pair share line and column, and an offset past the text has those of its end. In
a text of less than `UInt32.size - 1` bytes lines and columns are 32-bit words, also when counted
from 1. -/
theorem line_column_tell_offset (text : String) :
    let bytes := text.toUTF8.data.toList
    let index := ofText text
    index.starts.Pairwise (· < ·) ∧
    (∀ offset : Nat,
      let clamped := min offset index.textLength
      index.lineOf offset = (breakStops bytes).countP (· ≤ clamped) ∧
      (∃ result, Searched index.starts clamped result) ∧
      (∀ result, Searched index.starts clamped result →
        index.lineOf offset = answeredLine result) ∧
      ∃ start stop : Nat, index.starts[index.lineOf offset]? = some start ∧
        index.stops[index.lineOf offset]? = some stop ∧ start ≤ min clamped stop ∧
        index.lineColumn offset = (index.lineOf offset, min clamped stop - start) ∧
        start + (index.lineColumn offset).2 =
          if IsPairFeed bytes clamped then clamped - 1 else clamped) ∧
    (∀ a b : Nat, a < b → b ≤ index.textLength →
      (index.lineColumn a = index.lineColumn b ↔ b = a + 1 ∧ IsPairFeed bytes b)) ∧
    (∀ offset : Nat, index.textLength ≤ offset →
      index.lineColumn offset = index.lineColumn index.textLength) ∧
    (text.utf8ByteSize < UInt32.size - 1 → ∀ offset : Nat,
      (index.lineColumn offset).1 < UInt32.size - 1 ∧
      (index.lineColumn offset).2 < UInt32.size - 1) := by
  intro bytes index
  refine ⟨starts_increasing bytes, ?_, ?_, ?_, ?_⟩
  · intro offset clamped
    refine ⟨lineOf_eq_countP bytes offset, exists_searched bytes offset,
      fun result => lineOf_of_searched, ?_⟩
    obtain ⟨line, hline, hle, hstart, -⟩ := exists_line_of_offset bytes offset
    have hget : index.lines.toList[index.lineOf offset]? = some line := by
      rw [Array.getElem?_toList]
      exact hline
    refine ⟨line.start, line.stop, ?_, ?_, ?_, lineColumn_of_line hline, start_add_column hline⟩
    · rw [starts, List.getElem?_map, hget, Option.map_some]
    · rw [stops, List.getElem?_map, hget, Option.map_some]
    · exact Nat.le_min.2 ⟨hstart, hle⟩
  · intro a b hlt hb
    exact lineColumn_eq_iff hlt hb
  · intro offset hoffset
    have hclamp : min offset index.textLength = min index.textLength index.textLength := by
      rw [Nat.min_self, Nat.min_eq_right hoffset]
    simp only [lineColumn, lineOf, hclamp]
  · intro hshort offset
    obtain ⟨hline, hcolumn⟩ := lineColumn_le bytes offset
    exact ⟨Nat.lt_of_le_of_lt hline hshort, Nat.lt_of_le_of_lt hcolumn hshort⟩

/-- The second carriage return of `mixedBreaks` and the line feed behind it are one offset in lines
and columns, and an offset past the text is the end of it. -/
theorem line_column_mixedBreaks :
    (ofText mixedBreaks).lineColumn 2 = (ofText mixedBreaks).lineColumn 3 ∧
    (ofText mixedBreaks).lineColumn 4 ≠ (ofText mixedBreaks).lineColumn 5 ∧
    (ofText mixedBreaks).lineOf 99 = 4 ∧
    (ofText mixedBreaks).lineColumn 99 = (ofText mixedBreaks).lineColumn 7 ∧
    ((ofText mixedBreaks).lineColumn 99).1 < UInt32.size - 1 := by
  obtain ⟨-, hline, hsame, hpast, hwords⟩ := line_column_tell_offset mixedBreaks
  refine ⟨(hsame 2 3 (by decide) (by decide)).2 (by decide +kernel), ?_, ?_, hpast 99 (by decide),
    (hwords (by decide) 99).1⟩
  · intro heq
    exact absurd ((hsame 4 5 (by decide) (by decide)).1 heq).2 (by decide +kernel)
  · rw [(hline 99).1]
    decide +kernel

end LineIndex

end CallAlign
