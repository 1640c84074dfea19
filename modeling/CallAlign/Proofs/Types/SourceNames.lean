import Mathlib.Data.Set.Function
import CallAlign.Types.BinaryName

/-!
# Binary names and what they were built from

A binary name is built with two separators: a slash behind each part of the package, and a dollar
sign between the classes. It is read by splitting at the last of each.

**Theorem (`sourceNames_read_back`).** As long as no class has a slash in its name, the package is
read back in binary form. The innermost class is read back when its own name has no dollar sign; the
names around it may have some. Without either separator in the parts, different sources have
different binary names.

Slashes behind the parts of a package come to slashes for its dots and one more at the end
(`packageText_eq`). All else rests on one place: the slash at the end of the package is the last one
of the name, whatever the package holds, because none follows. In front of it stands the package
alone, empty parts included, and behind it the classes alone. The names of these are told apart
again by the dollar signs, so that there is a way back (`toSource`).
-/

namespace CallAlign.BinaryName

/-- The classes of a binary name as text, each behind the one that it is nested in. -/
def classText (classes : List String) : List Char :=
  List.intercalate ['$'] (classes.map String.toList)

theorem not_mem_intercalate {sep c : Char} (hne : c ≠ sep) {names : List (List Char)}
    (h : ∀ name ∈ names, c ∉ name) : c ∉ List.intercalate [sep] names := by
  induction names with
  | nil => simp
  | cons name rest ih =>
    have hname := h name (by simp)
    have hrest := ih fun other hother => h other (by simp [hother])
    cases rest with
    | nil => rwa [List.intercalate_singleton]
    | cons next rest =>
      rw [List.intercalate_cons_cons]
      simp [hname, hne, hrest]

theorem slash_not_mem_classText {classes : List String} (h : ∀ c ∈ classes, '/' ∉ c.toList) :
    '/' ∉ classText classes := by
  apply not_mem_intercalate (by decide)
  rw [List.forall_mem_map]
  exact h

theorem afterLast_classText {last : String} (h : '$' ∉ last.toList) (outer : List String) :
    Text.afterLast '$' (classText (outer ++ [last])) = last.toList := by
  induction outer with
  | nil =>
    rw [classText, List.nil_append, List.map_singleton, List.intercalate_singleton]
    exact Text.afterLast_of_not_mem h
  | cons name outer ih =>
    -- Behind the first dollar sign the name goes on as that of the nested classes.
    have hsplit : classText (name :: outer ++ [last]) =
        name.toList ++ '$' :: classText (outer ++ [last]) := by
      cases outer <;> simp [classText, List.intercalate_cons_cons]
    rw [hsplit, Text.afterLast_append_sep, ih]

/-! ## The package as text -/

/-- Pieces of a text that are closed by `mark` make up the text with a mark for each separator, and
one mark behind it. -/
theorem flatMap_splitOn (sep mark : Char) (text : List Char) :
    (List.splitOn sep text).flatMap (fun piece => piece ++ [mark]) =
      text.map (fun c => if c = sep then mark else c) ++ [mark] := by
  induction text with
  | nil => rfl
  | cons c rest ih =>
    rw [List.splitOn_cons_eq_if_modifyHead]
    by_cases h : c = sep
    · simp [h, ih]
    · -- The character goes to the front of the first piece, which there always is.
      obtain ⟨piece, pieces, hpieces⟩ := List.exists_cons_of_ne_nil (List.splitOn_ne_nil sep rest)
      rw [hpieces] at ih ⊢
      simpa [h] using ih

theorem packageText_eq {package : List Char} (h : package ≠ []) :
    packageText package = package.map (fun c => if c = '.' then '/' else c) ++ ['/'] := by
  rw [packageText, List.isEmpty_eq_false_iff.2 h, flatMap_splitOn]
  rfl

/-! ## The two halves of a name -/

section

variable {package : String} {classes : List String} (plain : ∀ c ∈ classes, '/' ∉ c.toList)

theorem text_of_unnamed (classes : List String) :
    (ofSource "" classes).text.toList = classText classes := by
  simp [ofSource, packageText, classText]

theorem text_of_package (h : package ≠ "") (classes : List String) :
    (ofSource package classes).text.toList =
      (package.map fun c => if c = '.' then '/' else c).toList ++ '/' :: classText classes := by
  have hchars : package.toList ≠ [] := by simpa using h
  simp [ofSource, packageText_eq hchars, classText, String.toList_map]

include plain

theorem splitLast?_ofSource :
    Text.splitLast? '/' (ofSource package classes).text.toList =
      if package = "" then none
      else some ((package.map fun c => if c = '.' then '/' else c).toList, classText classes) := by
  have hclasses := slash_not_mem_classText plain
  by_cases h : package = ""
  · subst h
    rw [if_pos rfl, text_of_unnamed, Text.splitLast?_of_not_mem hclasses]
  · rw [if_neg h, text_of_package h, Text.splitLast?_append hclasses]

theorem package?_ofSource :
    (ofSource package classes).package? =
      if package = "" then none else some (package.map fun c => if c = '.' then '/' else c) := by
  rw [package?, splitLast?_ofSource plain]
  by_cases h : package = ""
  · rw [if_pos h, if_pos h, Option.map_none]
  · rw [if_neg h, if_neg h]
    exact congrArg some String.ofList_toList

theorem afterLast_ofSource :
    Text.afterLast '/' (ofSource package classes).text.toList = classText classes := by
  rw [Text.afterLast, splitLast?_ofSource plain]
  by_cases h : package = ""
  · subst h
    simp [text_of_unnamed]
  · simp [h]

theorem simpleName_ofSource {last : String} (hlast : classes.getLast? = some last)
    (h : '$' ∉ last.toList) : (ofSource package classes).simpleName = last := by
  obtain ⟨outer, rfl⟩ := List.getLast?_eq_some_iff.1 hlast
  rw [simpleName, afterLast_ofSource plain, afterLast_classText h, String.ofList_toList]

end

/-! ## The way back -/

/-- The dotted package and the classes that a name may have been built from. -/
def toSource (name : BinaryName) : String × List String :=
  ((name.package?.getD "").map fun c => if c = '/' then '.' else c,
    (List.splitOn '$' (Text.afterLast '/' name.text.toList)).map String.ofList)

/-- Dots come back from slashes where there was no slash before. -/
theorem map_dot_of_slash {package : String} (h : '/' ∉ package.toList) :
    (package.map fun c => if c = '.' then '/' else c).map (fun c => if c = '/' then '.' else c) =
      package := by
  apply String.toList_injective
  rw [String.toList_map, String.toList_map, List.map_map]
  conv_rhs => rw [← List.map_id package.toList]
  refine List.map_congr_left fun c hc => ?_
  have hslash : c ≠ '/' := fun heq => h (heq ▸ hc)
  by_cases hdot : c = '.'
  · subst hdot
    rfl
  · simp [hdot, hslash]

theorem splitOn_classText {classes : List String} (nonempty : classes ≠ [])
    (h : ∀ c ∈ classes, '$' ∉ c.toList) :
    (List.splitOn '$' (classText classes)).map String.ofList = classes := by
  have hsplit : List.splitOn '$' (classText classes) = classes.map String.toList := by
    apply List.splitOn_intercalate
    · rw [List.forall_mem_map]
      exact h
    · simpa using nonempty
  rw [hsplit, List.map_map]
  simp [Function.comp_def]

theorem toSource_ofSource {package : String} {classes : List String}
    (hpackage : '/' ∉ package.toList) (nonempty : classes ≠ [])
    (hclasses : ∀ c ∈ classes, '/' ∉ c.toList ∧ '$' ∉ c.toList) :
    (ofSource package classes).toSource = (package, classes) := by
  have plain : ∀ c ∈ classes, '/' ∉ c.toList := fun c hc => (hclasses c hc).1
  have hnames := splitOn_classText nonempty fun c hc => (hclasses c hc).2
  rw [toSource, package?_ofSource plain, afterLast_ofSource plain, hnames]
  by_cases h : package = ""
  · simp [h]
  · rw [if_neg h, Option.getD_some, map_dot_of_slash hpackage]

/-- **Names read back.** For classes without a slash in their names, the package of a name is that
of its source in binary form, and there is none exactly for the unnamed package; the simple name is
that of the last class, if that has no dollar sign. And no two sources share a binary name, when
their packages have no slash and their classes neither slash nor dollar sign. -/
theorem sourceNames_read_back :
    (∀ (package : String) (classes : List String), (∀ c ∈ classes, '/' ∉ c.toList) →
      (ofSource package classes).package? =
        (if package = "" then none else some (package.map fun c => if c = '.' then '/' else c)) ∧
      ∀ last, classes.getLast? = some last → '$' ∉ last.toList →
        (ofSource package classes).simpleName = last) ∧
    Set.InjOn (fun source : String × List String => ofSource source.1 source.2)
      {source | '/' ∉ source.1.toList ∧ source.2 ≠ [] ∧
        ∀ c ∈ source.2, '/' ∉ c.toList ∧ '$' ∉ c.toList} := by
  constructor
  · intro package classes plain
    refine ⟨package?_ofSource plain, ?_⟩
    intro last hlast h
    exact simpleName_ofSource plain hlast h
  · rintro ⟨package, classes⟩ ⟨hpackage, hne, hclasses⟩ ⟨package', classes'⟩
      ⟨hpackage', hne', hclasses'⟩ hsame
    rw [← toSource_ofSource hpackage hne hclasses, ← toSource_ofSource hpackage' hne' hclasses']
    exact congrArg toSource hsame

/-- Empty parts of a package, a dollar sign in the name of an outer class, and empty class names. -/
theorem sourceNames_emptyParts :
    (ofSource ".a." ["A$B", "C"]).package? = some "/a/" ∧
    (ofSource ".a." ["A$B", "C"]).simpleName = "C" ∧
    ofSource "." ["", ""] ≠ ofSource ".." [""] := by
  obtain ⟨hread, hinjective⟩ := sourceNames_read_back
  obtain ⟨hpackage, hsimple⟩ := hread ".a." ["A$B", "C"] (by decide)
  have hnested : '/' ∉ ".".toList ∧ ["", ""] ≠ [] ∧
      ∀ c ∈ ["", ""], '/' ∉ c.toList ∧ '$' ∉ c.toList := by decide
  have hdeeper : '/' ∉ "..".toList ∧ [""] ≠ [] ∧
      ∀ c ∈ [""], '/' ∉ c.toList ∧ '$' ∉ c.toList := by decide
  refine ⟨?_, hsimple "C" rfl (by decide), fun hsame => ?_⟩
  · exact hpackage.trans (by decide +kernel)
  · have hsource := @hinjective (".", ["", ""]) hnested ("..", [""]) hdeeper hsame
    exact absurd hsource (by decide)

end CallAlign.BinaryName
