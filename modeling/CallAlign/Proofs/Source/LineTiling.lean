import Mathlib.Data.List.Intervals
import CallAlign.Source.LineIndex

/-!
# Lines and line breaks tile a text

The index of a text is made in one pass over its bytes. This file says what comes out of it, byte
by byte and without the pass.

**Theorem (`lines_tile_text`).** The first line starts at the start of the text and the last one
stops at its end. No line holds a line feed or a carriage return, and between a line and the next
one lies exactly one line break. So the lines and the breaks between them, written one after
another, are the text, and there is one line more than there are line breaks.

The pass is followed by `Tiles`, which cuts the text from a line start on into a line, a break and
the rest. Inside the pass a line is not finished, so the induction carries that it is unbroken so
far. A break is counted at its last byte: this is a line feed, or a carriage return that has no
line feed behind it, and so a pair counts once.

The index can as well be made by a loop that goes through the text by position and collects starts
and stops apart (`Pass`). A break adds one of each and the end of the text the stop that is still
missing, so there are as many of the one as of the other, and they are those of the index
(`Pass.run_eq`).
-/

namespace CallAlign

/-! ## Line breaks -/

/-- There is no line feed and no carriage return from `start` up to `stop`. -/
def Unbroken (bytes : List UInt8) (start stop : Nat) : Prop :=
  ∀ i, start ≤ i → i < stop → bytes[i]? ≠ some 10 ∧ bytes[i]? ≠ some 13

/-- The bytes from `start` up to `stop` are one line break. -/
inductive IsLineBreak (bytes : List UInt8) : Nat → Nat → Prop
  | lineFeed {start : Nat} (feed : bytes[start]? = some 10) :
      IsLineBreak bytes start (start + 1)
  | pair {start : Nat} (ret : bytes[start]? = some 13) (feed : bytes[start + 1]? = some 10) :
      IsLineBreak bytes start (start + 2)
  | carriageReturn {start : Nat} (ret : bytes[start]? = some 13)
      (alone : bytes[start + 1]? ≠ some 10) : IsLineBreak bytes start (start + 1)

/-- Whether the byte at `i` is the last one of a line break. -/
def endsBreak (bytes : List UInt8) (i : Nat) : Bool :=
  bytes[i]? = some 10 || (bytes[i]? = some 13 && bytes[i + 1]? ≠ some 10)

/-- Where the line breaks end whose last byte lies from `start` up to `stop`, in order. -/
def breakStopsIn (bytes : List UInt8) (start stop : Nat) : List Nat :=
  ((List.Ico start stop).filter (endsBreak bytes)).map (· + 1)

/-- Where the line breaks of a text end, in order. -/
def breakStops (bytes : List UInt8) : List Nat := breakStopsIn bytes 0 bytes.length

theorem breakStopsIn_append (bytes : List UInt8) {start middle stop : Nat} (hle : start ≤ middle)
    (hle' : middle ≤ stop) :
    breakStopsIn bytes start stop =
      breakStopsIn bytes start middle ++ breakStopsIn bytes middle stop := by
  rw [breakStopsIn, ← List.Ico.append_consecutive hle hle', List.filter_append, List.map_append]
  rfl

theorem length_breakStops_le (bytes : List UInt8) : (breakStops bytes).length ≤ bytes.length := by
  have hfilter := List.length_filter_le (endsBreak bytes) (List.Ico 0 bytes.length)
  simpa [breakStops, breakStopsIn] using hfilter

theorem Unbroken.refl (bytes : List UInt8) (start : Nat) : Unbroken bytes start start :=
  fun _ hle hlt => absurd hle (Nat.not_le.2 hlt)

/-- One more plain byte keeps a stretch unbroken. -/
theorem Unbroken.succ {bytes : List UInt8} {start stop : Nat} (h : Unbroken bytes start stop)
    {b : UInt8} (hb : bytes[stop]? = some b) (hfeed : b ≠ 10) (hret : b ≠ 13) :
    Unbroken bytes start (stop + 1) := by
  intro i hle hlt
  by_cases hi : i = stop
  · subst hi
    simp [hb, hfeed, hret]
  · exact h i hle (by omega)

theorem Unbroken.breakStopsIn {bytes : List UInt8} {start stop : Nat}
    (h : Unbroken bytes start stop) : breakStopsIn bytes start stop = [] := by
  rw [CallAlign.breakStopsIn, List.map_eq_nil_iff, List.filter_eq_nil_iff]
  intro i hi
  obtain ⟨hle, hlt⟩ := List.Ico.mem.1 hi
  obtain ⟨hfeed, hret⟩ := h i hle hlt
  simp [endsBreak, hfeed, hret]

theorem lt_length_of_getElem? {bytes : List UInt8} {i : Nat} {b : UInt8}
    (h : bytes[i]? = some b) : i < bytes.length :=
  (List.getElem?_eq_some_iff.1 h).1

theorem IsLineBreak.lt {bytes : List UInt8} {start stop : Nat} (h : IsLineBreak bytes start stop) :
    start < stop := by
  cases h <;> omega

theorem IsLineBreak.le_length {bytes : List UInt8} {start stop : Nat}
    (h : IsLineBreak bytes start stop) : stop ≤ bytes.length := by
  cases h with
  | lineFeed feed => exact lt_length_of_getElem? feed
  | pair _ feed => exact lt_length_of_getElem? feed
  | carriageReturn ret => exact lt_length_of_getElem? ret

/-- Of the bytes of a line break the last one alone ends it. -/
theorem IsLineBreak.breakStopsIn {bytes : List UInt8} {start stop : Nat}
    (h : IsLineBreak bytes start stop) : breakStopsIn bytes start stop = [stop] := by
  cases h with
  | lineFeed feed => simp [CallAlign.breakStopsIn, endsBreak, feed]
  | pair ret feed =>
    rw [breakStopsIn_append bytes (Nat.le_succ start) (Nat.le_succ (start + 1))]
    simp [CallAlign.breakStopsIn, endsBreak, ret, feed]
  | carriageReturn ret alone => simp [CallAlign.breakStopsIn, endsBreak, ret, alone]

/-! ## Tilings -/

/-- `lines` tile the text from `start` on: each of them is unbroken, and one line break lies
between it and the next. -/
inductive Tiles (bytes : List UInt8) : Nat → List Line → Prop
  | last {start : Nat} (hle : start ≤ bytes.length) (unbroken : Unbroken bytes start bytes.length) :
      Tiles bytes start [⟨start, bytes.length⟩]
  | cons {start stop next : Nat} {lines : List Line} (hle : start ≤ stop)
      (unbroken : Unbroken bytes start stop) (isBreak : IsLineBreak bytes stop next)
      (later : Tiles bytes next lines) : Tiles bytes start (⟨start, stop⟩ :: lines)

theorem getElem?_of_drop_eq_cons {bytes rest : List UInt8} {position : Nat} {b : UInt8}
    (h : bytes.drop position = b :: rest) : bytes[position]? = some b := by
  rw [← List.head?_drop, h, List.head?_cons]

theorem drop_succ_of_drop_eq_cons {bytes rest : List UInt8} {position : Nat} {b : UInt8}
    (h : bytes.drop position = b :: rest) : bytes.drop (position + 1) = rest := by
  rw [← List.tail_drop, h, List.tail_cons]

theorem drop_eq_cons_of_getElem? {bytes : List UInt8} {i : Nat} {b : UInt8}
    (h : bytes[i]? = some b) : bytes.drop i = b :: bytes.drop (i + 1) := by
  rw [List.drop_eq_getElem?_toList_append, h]
  rfl

/-- The pass over the bytes from `position` on finishes the line that began at `start` and tiles
what comes behind it. -/
theorem tiles_linesFrom {bytes rest : List UInt8} {start position : Nat}
    (hrest : bytes.drop position = rest) (hle : start ≤ position)
    (hposition : position ≤ bytes.length) (unbroken : Unbroken bytes start position) :
    Tiles bytes start (LineIndex.linesFrom start position rest) := by
  fun_induction LineIndex.linesFrom start position rest with
  | case1 start position =>
    have hend : position = bytes.length :=
      Nat.le_antisymm hposition (List.drop_eq_nil_iff.1 hrest)
    subst hend
    exact .last hle unbroken
  | case2 start position rest ih =>
    have hfeed := IsLineBreak.lineFeed (getElem?_of_drop_eq_cons hrest)
    exact .cons hle unbroken hfeed (ih (drop_succ_of_drop_eq_cons hrest) (Nat.le_refl _)
      hfeed.le_length (.refl _ _))
  | case3 start position rest ih =>
    have htail := drop_succ_of_drop_eq_cons hrest
    have hpair := IsLineBreak.pair (getElem?_of_drop_eq_cons hrest) (getElem?_of_drop_eq_cons htail)
    exact .cons hle unbroken hpair (ih (drop_succ_of_drop_eq_cons htail) (Nat.le_refl _)
      hpair.le_length (.refl _ _))
  | case4 start position rest hnotFeed ih =>
    have htail := drop_succ_of_drop_eq_cons hrest
    have halone : bytes[position + 1]? ≠ some 10 := by
      intro hfeed
      have hhead : rest.head? = some 10 := by rw [← htail, List.head?_drop, hfeed]
      cases rest with
      | nil => cases hhead
      | cons b more => exact hnotFeed more (by cases hhead; rfl)
    have hreturn := IsLineBreak.carriageReturn (getElem?_of_drop_eq_cons hrest) halone
    exact .cons hle unbroken hreturn (ih htail (Nat.le_refl _) hreturn.le_length (.refl _ _))
  | case5 start position b rest hfeed _ hret ih =>
    -- A plain byte leaves the line open, so `start` stays behind while `position` goes on.
    have hbyte := getElem?_of_drop_eq_cons hrest
    exact ih (drop_succ_of_drop_eq_cons hrest) (Nat.le_succ_of_le hle)
      (lt_length_of_getElem? hbyte) (unbroken.succ hbyte hfeed hret)

theorem tiles_ofBytes (bytes : List UInt8) :
    Tiles bytes 0 (LineIndex.ofBytes bytes).lines.toList :=
  tiles_linesFrom List.drop_zero (Nat.le_refl _) (Nat.zero_le _) (.refl _ _)

/-! ## What a tiling says -/

namespace Tiles

variable {bytes : List UInt8} {start : Nat} {lines : List Line}

theorem le_length (h : Tiles bytes start lines) : start ≤ bytes.length := by
  cases h with
  | last hle => exact hle
  | cons hle _ isBreak =>
    exact Nat.le_trans hle (Nat.le_trans (Nat.le_of_lt isBreak.lt) isBreak.le_length)

theorem head (h : Tiles bytes start lines) : ∃ stop rest, lines = ⟨start, stop⟩ :: rest := by
  cases h with
  | last => exact ⟨_, _, rfl⟩
  | cons => exact ⟨_, _, rfl⟩

theorem getLast? (h : Tiles bytes start lines) :
    lines.getLast?.map Line.stop = some bytes.length := by
  induction h with
  | last => rfl
  | cons _ _ _ later ih =>
    obtain ⟨stop, rest, rfl⟩ := later.head
    rwa [List.getLast?_cons_cons]

theorem mem (h : Tiles bytes start lines) {line : Line} (hline : line ∈ lines) :
    line.start ≤ line.stop ∧ line.stop ≤ bytes.length ∧ Unbroken bytes line.start line.stop := by
  induction h with
  | last hle unbroken =>
    cases List.mem_singleton.1 hline
    exact ⟨hle, Nat.le_refl _, unbroken⟩
  | cons hle unbroken isBreak _ ih =>
    rcases List.mem_cons.1 hline with rfl | hline
    · exact ⟨hle, Nat.le_trans (Nat.le_of_lt isBreak.lt) isBreak.le_length, unbroken⟩
    · exact ih hline

/-- Between neighbours lies one line break. -/
theorem isLineBreak (h : Tiles bytes start lines) {i : Nat} {line next : Line}
    (hline : lines[i]? = some line) (hnext : lines[i + 1]? = some next) :
    IsLineBreak bytes line.stop next.start := by
  induction h generalizing i with
  | last => cases hnext
  | cons _ _ isBreak later ih =>
    cases i with
    | zero =>
      obtain ⟨stop, rest, rfl⟩ := later.head
      cases hline
      cases hnext
      exact isBreak
    | succ i => exact ih hline hnext

/-- Every line but the first starts where a line break ends, and no break is left out. -/
theorem starts (h : Tiles bytes start lines) :
    lines.map Line.start = start :: breakStopsIn bytes start bytes.length := by
  induction h with
  | last _ unbroken => rw [unbroken.breakStopsIn, List.map_singleton]
  | @cons start stop next lines hle unbroken isBreak later ih =>
    have hnext := later.le_length
    have hlt := isBreak.lt
    rw [List.map_cons, ih, breakStopsIn_append bytes hle (show stop ≤ bytes.length by omega),
      breakStopsIn_append bytes (Nat.le_of_lt hlt) hnext, unbroken.breakStopsIn,
      isBreak.breakStopsIn, List.nil_append, List.singleton_append]

end Tiles

/-! ## The text again -/

theorem extract_append_drop (bytes : List UInt8) {start stop : Nat} (h : start ≤ stop) :
    bytes.extract start stop ++ bytes.drop stop = bytes.drop start := by
  have hdrop : bytes.drop stop = (bytes.drop start).drop (stop - start) := by
    rw [List.drop_drop, Nat.add_sub_cancel' h]
  rw [List.extract_eq_take_drop, hdrop, List.take_append_drop]

/-- The bytes of the lines, each followed by the bytes between it and the next one. -/
def joinLines (bytes : List UInt8) : List Line → List UInt8
  | [] => []
  | [line] => bytes.extract line.start line.stop
  | line :: next :: rest =>
    bytes.extract line.start line.stop ++
      (bytes.extract line.stop next.start ++ joinLines bytes (next :: rest))

/-- Nothing is lost in a tiling and nothing comes twice. -/
theorem Tiles.joinLines_eq {bytes : List UInt8} {start : Nat} {lines : List Line}
    (h : Tiles bytes start lines) : joinLines bytes lines = bytes.drop start := by
  induction h with
  | @last start hle _ =>
    have happend := extract_append_drop bytes hle
    rwa [List.drop_length, List.append_nil] at happend
  | cons hle _ isBreak later ih =>
    obtain ⟨_, rest, rfl⟩ := later.head
    rw [joinLines, ih, extract_append_drop bytes (Nat.le_of_lt isBreak.lt),
      extract_append_drop bytes hle]

/-! ## The index of a text -/

namespace LineIndex

def starts (index : LineIndex) : List Nat := index.lines.toList.map Line.start

def stops (index : LineIndex) : List Nat := index.lines.toList.map Line.stop

theorem exists_line {index : LineIndex} {i start stop : Nat}
    (hstart : index.starts[i]? = some start) (hstop : index.stops[i]? = some stop) :
    (⟨start, stop⟩ : Line) ∈ index.lines.toList := by
  rw [starts, List.getElem?_map, Option.map_eq_some_iff] at hstart
  rw [stops, List.getElem?_map, Option.map_eq_some_iff] at hstop
  obtain ⟨line, hline, rfl⟩ := hstart
  obtain ⟨same, hsame, rfl⟩ := hstop
  cases hline.symm.trans hsame
  exact List.mem_of_getElem? hline

theorem isLineBreak_of_tiles {bytes : List UInt8} {index : LineIndex} {first : Nat}
    (h : Tiles bytes first index.lines.toList) {i stop next : Nat}
    (hstop : index.stops[i]? = some stop) (hnext : index.starts[i + 1]? = some next) :
    IsLineBreak bytes stop next := by
  rw [stops, List.getElem?_map, Option.map_eq_some_iff] at hstop
  rw [starts, List.getElem?_map, Option.map_eq_some_iff] at hnext
  obtain ⟨line, hline, rfl⟩ := hstop
  obtain ⟨later, hlater, rfl⟩ := hnext
  exact h.isLineBreak hline hlater

/-! ## The index from a loop -/

theorem linesFrom_of_isLineBreak {bytes : List UInt8} {position next : Nat}
    (h : IsLineBreak bytes position next) (start : Nat) :
    linesFrom start position (bytes.drop position) =
      ⟨start, position⟩ :: linesFrom next next (bytes.drop next) := by
  cases h with
  | lineFeed feed => rw [drop_eq_cons_of_getElem? feed, linesFrom]
  | pair ret feed =>
    rw [drop_eq_cons_of_getElem? ret, drop_eq_cons_of_getElem? feed, linesFrom]
  | carriageReturn ret alone =>
    rw [drop_eq_cons_of_getElem? ret, linesFrom]
    intro rest hrest
    exact alone (getElem?_of_drop_eq_cons hrest)

theorem linesFrom_of_plain {bytes : List UInt8} {position : Nat} {b : UInt8}
    (hb : bytes[position]? = some b) (hfeed : b ≠ 10) (hreturn : b ≠ 13) (start : Nat) :
    linesFrom start position (bytes.drop position) =
      linesFrom start (position + 1) (bytes.drop (position + 1)) := by
  rw [drop_eq_cons_of_getElem? hb, linesFrom]
  · exact hfeed
  · intro rest hpair
    exact absurd hpair hreturn
  · exact hreturn

/-- What a pass over a text has collected on the way to `position`. It is in a line of which only
the start is known. -/
structure Pass where
  starts : Array Nat := #[0]
  stops : Array Nat := #[]
  position : Nat := 0

namespace Pass

/-- Goes past a line break of `width` bytes. -/
def breakLine (p : Pass) (width : Nat) : Pass :=
  ⟨p.starts.push (p.position + width), p.stops.push p.position, p.position + width⟩

/-- Goes past the byte `b` at the position, with the line feed behind a carriage return. -/
def turn (bytes : List UInt8) (p : Pass) (b : UInt8) : Pass :=
  if b = 10 then p.breakLine 1
  else if b = 13 then p.breakLine (if bytes[p.position + 1]? = some 10 then 2 else 1)
  else { p with position := p.position + 1 }

/-- A turn goes past one line break, or past one byte of a line. -/
theorem turn_cases {bytes : List UInt8} {p : Pass} {b : UInt8}
    (hb : bytes[p.position]? = some b) :
    (∃ width, IsLineBreak bytes p.position (p.position + width) ∧
      p.turn bytes b = p.breakLine width) ∨
    (b ≠ 10 ∧ b ≠ 13) ∧ p.turn bytes b = { p with position := p.position + 1 } := by
  unfold turn
  by_cases hfeed : b = 10
  · subst hfeed
    exact .inl ⟨1, .lineFeed hb, if_pos rfl⟩
  rw [if_neg hfeed]
  by_cases hreturn : b = 13
  · subst hreturn
    rw [if_pos rfl]
    by_cases hpair : bytes[p.position + 1]? = some 10
    · exact .inl ⟨2, .pair hb hpair, by rw [if_pos hpair]⟩
    · exact .inl ⟨1, .carriageReturn hb hpair, by rw [if_neg hpair]⟩
  · exact .inr ⟨⟨hfeed, hreturn⟩, if_neg hreturn⟩

theorem position_lt_turn {bytes : List UInt8} {p : Pass} {b : UInt8}
    (hb : bytes[p.position]? = some b) : p.position < (p.turn bytes b).position := by
  obtain ⟨width, isBreak, hturn⟩ | ⟨-, hturn⟩ := turn_cases hb
  · rw [hturn]
    exact isBreak.lt
  · rw [hturn]
    exact Nat.lt_add_one _

/-- Goes on to the end of the text, where the last line stops. -/
def run (bytes : List UInt8) (p : Pass) : Pass :=
  if h : p.position < bytes.length then run bytes (p.turn bytes bytes[p.position])
  else { p with stops := p.stops.push bytes.length }
termination_by bytes.length - p.position
decreasing_by
  have hlt := position_lt_turn (List.getElem?_eq_getElem h)
  omega

theorem size_turn {bytes : List UInt8} {p : Pass} (h : p.starts.size = p.stops.size + 1)
    {b : UInt8} (hb : bytes[p.position]? = some b) :
    (p.turn bytes b).starts.size = (p.turn bytes b).stops.size + 1 := by
  obtain ⟨width, -, hturn⟩ | ⟨-, hturn⟩ := turn_cases hb
  · simp [hturn, breakLine, h]
  · rw [hturn]
    exact h

/-- At the end there are as many stops as starts. -/
theorem size_run {p : Pass} (h : p.starts.size = p.stops.size + 1) (bytes : List UInt8) :
    (p.run bytes).starts.size = (p.run bytes).stops.size := by
  fun_induction run bytes p with
  | case1 p hlt ih => exact ih (size_turn h (List.getElem?_eq_getElem hlt))
  | case2 p hge => simp [h]

/-- The pass has collected the lines `before` and is in one that began at `start`; what the index
holds besides `before` is still ahead. -/
structure Follows (bytes : List UInt8) (p : Pass) (before : List Line) (start : Nat) : Prop where
  inside : p.position ≤ bytes.length
  starts : p.starts.toList = before.map Line.start ++ [start]
  stops : p.stops.toList = before.map Line.stop
  ahead : (ofBytes bytes).lines.toList =
    before ++ linesFrom start p.position (bytes.drop p.position)

section

variable {bytes : List UInt8} {p : Pass} {before : List Line} {start : Nat}

theorem Follows.breakLine (h : Follows bytes p before start) {width : Nat}
    (isBreak : IsLineBreak bytes p.position (p.position + width)) :
    Follows bytes (p.breakLine width) (before ++ [⟨start, p.position⟩]) (p.position + width) where
  inside := isBreak.le_length
  starts := by simp [Pass.breakLine, h.starts]
  stops := by simp [Pass.breakLine, h.stops]
  ahead := by
    rw [h.ahead, linesFrom_of_isLineBreak isBreak, List.append_assoc]
    rfl

/-- One turn goes on along the lines of the index. -/
theorem Follows.turn (h : Follows bytes p before start) {b : UInt8}
    (hb : bytes[p.position]? = some b) :
    ∃ before start, Follows bytes (p.turn bytes b) before start := by
  obtain ⟨width, isBreak, hturn⟩ | ⟨⟨hfeed, hreturn⟩, hturn⟩ := turn_cases hb
  · rw [hturn]
    exact ⟨_, _, h.breakLine isBreak⟩
  · rw [hturn]
    refine ⟨before, start, lt_length_of_getElem? hb, h.starts, h.stops, ?_⟩
    rw [h.ahead, linesFrom_of_plain hb hfeed hreturn]

theorem Follows.run (h : Follows bytes p before start) :
    (p.run bytes).starts.toList = (ofBytes bytes).starts ∧
      (p.run bytes).stops.toList = (ofBytes bytes).stops := by
  fun_induction Pass.run bytes p generalizing before start with
  | case1 p hlt ih =>
    obtain ⟨before, start, hturn⟩ := h.turn (List.getElem?_eq_getElem hlt)
    exact ih hturn
  | case2 p hge =>
    -- The text is over, so the line that the pass is in is the last.
    have hend : p.position = bytes.length := Nat.le_antisymm h.inside (Nat.le_of_not_lt hge)
    have hlines : (ofBytes bytes).lines.toList = before ++ [⟨start, bytes.length⟩] := by
      rw [h.ahead, hend, List.drop_length]
      rfl
    simp [LineIndex.starts, LineIndex.stops, hlines, h.starts, h.stops]

end

/-- The loop collects the starts and the stops of the index. -/
theorem run_eq (bytes : List UInt8) :
    (run bytes {}).starts.toList = (ofBytes bytes).starts ∧
      (run bytes {}).stops.toList = (ofBytes bytes).stops := by
  have hstart : Follows bytes {} [] 0 := ⟨Nat.zero_le _, rfl, rfl, rfl⟩
  exact hstart.run

end Pass

theorem length_stops (bytes : List UInt8) :
    (ofBytes bytes).stops.length = (ofBytes bytes).starts.length := by
  obtain ⟨hstarts, hstops⟩ := Pass.run_eq bytes
  have hsize := Pass.size_run (p := {}) rfl bytes
  rw [← hstarts, ← hstops, Array.length_toList, Array.length_toList, hsize]

/-! ## The theorem -/

/-- **Lines tile the text.** The starts and the stops are those that a loop over the text collects
apart, and there are as many of each as there are lines. The first line starts at 0 and the last one
stops at the length of the text; every line is unbroken, and between two neighbours lies one line
break. So lines and breaks make up the text, every line but the first starts where a break ends, and
there is one line more than there are breaks. In a text of less than `UInt32.size - 1` bytes all
these numbers are 32-bit words. -/
theorem lines_tile_text (text : String) :
    let bytes := text.toUTF8.data.toList
    let index := ofText text
    ((Pass.run bytes {}).starts.toList = index.starts ∧
      (Pass.run bytes {}).stops.toList = index.stops) ∧
    (index.starts.length = index.lineCount ∧ index.stops.length = index.lineCount) ∧
    (index.starts[0]? = some 0 ∧ index.stops.getLast? = some index.textLength ∧
      index.textLength = text.utf8ByteSize) ∧
    (∀ i start stop : Nat, index.starts[i]? = some start → index.stops[i]? = some stop →
      start ≤ stop ∧ stop ≤ text.utf8ByteSize ∧ Unbroken bytes start stop) ∧
    (∀ i stop next : Nat, index.stops[i]? = some stop → index.starts[i + 1]? = some next →
      IsLineBreak bytes stop next) ∧
    joinLines bytes index.lines.toList = bytes ∧
    index.starts = 0 :: breakStops bytes ∧ index.lineCount = (breakStops bytes).length + 1 ∧
    (text.utf8ByteSize < UInt32.size - 1 →
      index.lineCount < UInt32.size ∧ index.textLength < UInt32.size ∧
      ∀ line ∈ index.lines, line.start < UInt32.size ∧ line.stop < UInt32.size) := by
  intro bytes index
  have htiles : Tiles bytes 0 index.lines.toList := tiles_ofBytes bytes
  have hlength : bytes.length = text.utf8ByteSize := rfl
  have hstarts : index.starts = 0 :: breakStops bytes := htiles.starts
  have hcount : index.lineCount = (breakStops bytes).length + 1 := by
    rw [← List.length_cons (a := 0), ← hstarts]
    simp [starts, lineCount]
  refine ⟨Pass.run_eq bytes, ?_, ?_, ?_, ?_, ?_, hstarts, hcount, ?_⟩
  · have hlines : index.starts.length = index.lineCount := by simp [starts, lineCount]
    exact ⟨hlines, (length_stops bytes).trans hlines⟩
  · refine ⟨by rw [hstarts]; rfl, ?_, rfl⟩
    rw [stops, List.getLast?_map]
    exact htiles.getLast?
  · intro i start stop hstart hstop
    exact htiles.mem (exists_line hstart hstop)
  · intro i stop next hstop hnext
    exact isLineBreak_of_tiles htiles hstop hnext
  · rw [htiles.joinLines_eq, List.drop_zero]
  · intro hshort
    have hbreaks := length_breakStops_le bytes
    refine ⟨by omega, ?_, ?_⟩
    · show bytes.length < _
      omega
    · intro line hline
      have hmem := htiles.mem (Array.mem_toList_iff.2 hline)
      omega

/-- Two carriage returns of which the second begins a pair, then a line feed in front of a
carriage return at the end of the text: four line breaks. -/
def mixedBreaks : String := "a\r\r\nb\n\r"

theorem lines_mixedBreaks :
    (ofText mixedBreaks).lines = #[⟨0, 1⟩, ⟨2, 2⟩, ⟨4, 5⟩, ⟨6, 6⟩, ⟨7, 7⟩] ∧
    (ofText mixedBreaks).starts = 0 :: [2, 4, 6, 7] ∧
    (ofText mixedBreaks).lineCount < UInt32.size := by
  obtain ⟨-, -, -, -, -, -, hstarts, -, hwords⟩ := lines_tile_text mixedBreaks
  have hbreaks : breakStops mixedBreaks.toUTF8.data.toList = [2, 4, 6, 7] := by decide +kernel
  refine ⟨by decide +kernel, ?_, (hwords (by decide)).1⟩
  rw [hstarts, hbreaks]

end LineIndex

end CallAlign
