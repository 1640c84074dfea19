import Mathlib.Data.List.Perm.Basic
import CallAlign.Settings.Toml

/-!
# The values that are settings

**Theorem (`accepts_exactly`).** A table with distinct keys is read as settings iff it holds nothing
but truth values under the two keys. Each setting is then the one that the table holds, or on when
it holds none, and the order of the entries does not matter. An array is read iff it is a list of at
most two truth values; it gives the settings in order, and those behind its end are on. Nothing else
is read.

A table is read entry by entry, so the induction is over the entries with the settings of the start
left free. What the entries tell of a setting (`Tells`) is told with a fallback for the same reason:
behind the first entry, the fallback of its key is its value.
-/

namespace CallAlign

/-! ## Truth values -/

theorem Value.exists_bool_of_map {α : Type} {v : Value} {f : Bool → α} {a : α}
    (h : v.asBool.map f = .ok a) : ∃ b, v = .bool b := by
  cases v with
  | bool b => exact ⟨b, rfl⟩
  | _ => cases h

theorem Value.exists_bool_of_bind {α : Type} {v : Value} {f : Bool → Except ReadError α} {a : α}
    (h : v.asBool >>= f = .ok a) : ∃ b, v = .bool b ∧ f b = .ok a := by
  cases v with
  | bool b => exact ⟨b, rfl, h⟩
  | _ => cases h

namespace Settings

/-- The entry gives one of the settings a truth value. -/
def IsSetting (entry : String × Value) : Prop :=
  (entry.1 = "skip_synthetic" ∨ entry.1 = "one_based_positions") ∧ ∃ b, entry.2 = .bool b

/-- `b` is the truth value that the entries hold under `key`, or `fallback` when they hold nothing
under it. -/
def Tells (entries : List (String × Value)) (key : String) (fallback b : Bool) : Prop :=
  (key, Value.bool b) ∈ entries ∨ key ∉ entries.map Prod.fst ∧ b = fallback

/-! ## What entries tell -/

section

variable {entries other : List (String × Value)} {key : String} {fallback b : Bool}

theorem tells_nil : Tells [] key fallback b ↔ b = fallback := by
  simp [Tells]

theorem tells_cons_of_ne {first : String} (h : key ≠ first) (v : Value) :
    Tells ((first, v) :: entries) key fallback b ↔ Tells entries key fallback b := by
  simp [Tells, h]

/-- An entry for the key tells its value, and no later one tells another. -/
theorem tells_cons_self {given : Bool} (h : key ∉ entries.map Prod.fst) :
    Tells ((key, .bool given) :: entries) key fallback b ↔ Tells entries key given b := by
  have hnone : (key, Value.bool b) ∉ entries := fun hmem => h (List.mem_map_of_mem hmem)
  simp only [Tells, List.mem_cons, Prod.mk.injEq, Value.bool.injEq, true_and, hnone, h,
    not_false_eq_true, or_false, false_or, List.map_cons, not_true_eq_false, false_and]

theorem exists_tells (h : ∀ entry ∈ entries, IsSetting entry) (key : String) (fallback : Bool) :
    ∃ b, Tells entries key fallback b := by
  by_cases hkey : key ∈ entries.map Prod.fst
  · obtain ⟨⟨_, v⟩, hentry, rfl⟩ := List.mem_map.1 hkey
    obtain ⟨-, b, rfl⟩ := h _ hentry
    exact ⟨b, .inl hentry⟩
  · exact ⟨fallback, .inr ⟨hkey, rfl⟩⟩

theorem tells_perm (h : entries.Perm other) :
    Tells entries key fallback b ↔ Tells other key fallback b := by
  rw [Tells, Tells, h.mem_iff, (h.map Prod.fst).mem_iff]

end

/-! ## Tables -/

theorem isSetting_of_readEntry {start next : Settings} {entry : String × Value}
    (h : start.readEntry entry = .ok next) : IsSetting entry := by
  unfold readEntry at h
  split at h
  · rename_i hkey
    exact ⟨.inl hkey, Value.exists_bool_of_map h⟩
  · split at h
    · rename_i hkey
      exact ⟨.inr hkey, Value.exists_bool_of_map h⟩
    · cases h

/-- **Entries are read to what they tell**, from any settings on. -/
theorem foldlM_readEntry_eq_ok_iff {entries : List (String × Value)}
    (distinct : (entries.map Prod.fst).Nodup) {start settings : Settings} :
    entries.foldlM readEntry start = .ok settings ↔
      (∀ entry ∈ entries, IsSetting entry) ∧
      Tells entries "skip_synthetic" start.skipSynthetic settings.skipSynthetic ∧
      Tells entries "one_based_positions" start.oneBasedPositions settings.oneBasedPositions := by
  induction entries generalizing start with
  | nil =>
    obtain ⟨skip, base⟩ := settings
    obtain ⟨startSkip, startBase⟩ := start
    simp [tells_nil, pure, Except.pure, eq_comm]
  | cons entry rest ih =>
    obtain ⟨hkey, hrest⟩ := List.nodup_cons.1 distinct
    rw [List.foldlM_cons, List.forall_mem_cons]
    by_cases hsetting : IsSetting entry
    · rw [and_iff_right hsetting]
      obtain ⟨key, v⟩ := entry
      obtain ⟨hname, b, hb⟩ := hsetting
      simp only at hname hb
      subst hb
      -- The entry sets one setting and leaves the other to the rest of the table.
      rcases hname with rfl | rfl
      · have hread : start.readEntry ("skip_synthetic", .bool b) =
            .ok { start with skipSynthetic := b } := rfl
        rw [hread, tells_cons_self hkey, tells_cons_of_ne (by decide)]
        exact ih hrest
      · have hread : start.readEntry ("one_based_positions", .bool b) =
            .ok { start with oneBasedPositions := b } := rfl
        rw [hread, tells_cons_of_ne (by decide), tells_cons_self hkey]
        exact ih hrest
    · cases hread : start.readEntry entry with
      | error e => simp [hsetting, bind, Except.bind]
      | ok next => exact absurd (isSetting_of_readEntry hread) hsetting

theorem ofEntries_perm {entries other : List (String × Value)}
    (distinct : (entries.map Prod.fst).Nodup) (h : entries.Perm other) {settings : Settings} :
    ofEntries other = .ok settings ↔ ofEntries entries = .ok settings := by
  have distinct' : (other.map Prod.fst).Nodup := (h.map Prod.fst).nodup_iff.1 distinct
  rw [ofEntries, ofEntries, foldlM_readEntry_eq_ok_iff distinct,
    foldlM_readEntry_eq_ok_iff distinct', tells_perm h, tells_perm h]
  simp only [h.mem_iff]

theorem exists_ofEntries_iff {entries : List (String × Value)}
    (distinct : (entries.map Prod.fst).Nodup) :
    (∃ settings, ofEntries entries = .ok settings) ↔ ∀ entry ∈ entries, IsSetting entry := by
  constructor
  · rintro ⟨settings, h⟩
    exact ((foldlM_readEntry_eq_ok_iff distinct).1 h).1
  · intro h
    obtain ⟨skip, hskip⟩ := exists_tells h "skip_synthetic" true
    obtain ⟨base, hbase⟩ := exists_tells h "one_based_positions" true
    exact ⟨⟨skip, base⟩, (foldlM_readEntry_eq_ok_iff distinct).2 ⟨h, hskip, hbase⟩⟩

/-! ## Arrays -/

theorem ofItems_eq_ok_iff {items : List Value} {settings : Settings} :
    ofItems items = .ok settings ↔ items.length ≤ 2 ∧
      ∃ flags : List Bool, items = flags.map .bool ∧
        settings = ⟨flags.getD 0 true, flags.getD 1 true⟩ := by
  constructor
  · intro h
    unfold ofItems at h
    split at h
    · cases h
      exact ⟨by simp, [], rfl, rfl⟩
    · obtain ⟨skip, rfl, hdone⟩ := Value.exists_bool_of_bind h
      cases hdone
      exact ⟨by simp, [skip], rfl, rfl⟩
    · obtain ⟨skip, rfl, hbase⟩ := Value.exists_bool_of_bind h
      obtain ⟨base, rfl, hdone⟩ := Value.exists_bool_of_bind hbase
      cases hdone
      exact ⟨by simp, [skip, base], rfl, rfl⟩
    · -- A longer array is refused even if it starts with two truth values.
      obtain ⟨skip, -, hbase⟩ := Value.exists_bool_of_bind h
      obtain ⟨base, -, hdone⟩ := Value.exists_bool_of_bind hbase
      cases hdone
  · rintro ⟨hlength, flags, rfl, rfl⟩
    match flags, hlength with
    | [], _ => rfl
    | [skip], _ => rfl
    | [skip, base], _ => rfl
    | _ :: _ :: _ :: _, hlength => simp at hlength

/-! ## All values -/

theorem ofTomlWith_eq_ok_iff {parse : String → Option (List (String × Value))} {text : String}
    {settings : Settings} :
    ofTomlWith parse text = .ok settings ↔
      ∃ entries, parse text = some entries ∧ ofEntries entries = .ok settings := by
  unfold ofTomlWith
  cases parse text with
  | none => simp
  | some entries => cases hread : ofEntries entries <;> simp [hread, Except.mapError]

/-- **Settings are read from exactly their tables and arrays.** A table with distinct keys is read
iff each entry is a truth value under one of the two keys. Each setting then is what the table tells
of it, on by default, and the entries in another order give the same. A text is read as the table
that it parses to, whatever the parser. An array is read iff it is at most two truth values, which
are the settings in order, on by default. No other value is read. -/
theorem accepts_exactly :
    (∀ entries : List (String × Value), (entries.map Prod.fst).Nodup →
      ((∃ settings, ofValue (.table entries) = .ok settings) ↔
        ∀ entry ∈ entries, (entry.1 = "skip_synthetic" ∨ entry.1 = "one_based_positions") ∧
          ∃ b, entry.2 = .bool b) ∧
      (∀ settings, ofValue (.table entries) = .ok settings →
        Tells entries "skip_synthetic" true settings.skipSynthetic ∧
        Tells entries "one_based_positions" true settings.oneBasedPositions) ∧
      (∀ other settings, entries.Perm other →
        (ofValue (.table other) = .ok settings ↔ ofValue (.table entries) = .ok settings))) ∧
    (∀ parse text settings, ofTomlWith parse text = .ok settings ↔
      ∃ entries, parse text = some entries ∧ ofValue (.table entries) = .ok settings) ∧
    (∀ items settings, ofValue (.array items) = .ok settings ↔ items.length ≤ 2 ∧
      ∃ flags : List Bool, items = flags.map .bool ∧
        settings = ⟨flags.getD 0 true, flags.getD 1 true⟩) ∧
    (∀ v settings, ofValue v = .ok settings →
      (∃ entries, v = .table entries) ∨ ∃ items, v = .array items) := by
  refine ⟨?_, fun _ _ _ => ofTomlWith_eq_ok_iff, fun _ _ => ofItems_eq_ok_iff, ?_⟩
  · intro entries distinct
    refine ⟨exists_ofEntries_iff distinct, ?_, ?_⟩
    · intro settings h
      exact ((foldlM_readEntry_eq_ok_iff distinct).1 h).2
    · intro other settings hperm
      exact ofEntries_perm distinct hperm
  · intro v settings h
    cases v with
    | table entries => exact .inl ⟨entries, rfl⟩
    | array items => exact .inr ⟨items, rfl⟩
    | _ => cases h

/-- One setting alone, in a table and in an array, and a table in place of a truth value. -/
theorem accepts_loneSetting :
    ofValue (.table [("one_based_positions", .bool false)]) = .ok ⟨true, false⟩ ∧
    ofValue (.array [.bool false]) = .ok ⟨false, true⟩ ∧
    ¬ ∃ settings, ofValue (.table [("skip_synthetic", .table [("skip_synthetic", .bool true)])]) =
      .ok settings := by
  obtain ⟨htable, -, harray, -⟩ := accepts_exactly
  obtain ⟨hlone, htells, -⟩ := htable [("one_based_positions", .bool false)] (by decide)
  obtain ⟨hnested, -, -⟩ :=
    htable [("skip_synthetic", .table [("skip_synthetic", .bool true)])] (by decide)
  refine ⟨?_, (harray _ _).2 ⟨by decide, [false], rfl, rfl⟩, ?_⟩
  · obtain ⟨⟨skip, base⟩, hread⟩ := hlone.2 (by simp)
    obtain ⟨hskip, hbase⟩ := htells _ hread
    simp only [Tells, List.mem_singleton, List.map_cons, List.map_nil, Prod.mk.injEq,
      Value.bool.injEq] at hskip hbase
    rw [hread]
    simp_all
  · rw [hnested]
    simp

end Settings

end CallAlign
