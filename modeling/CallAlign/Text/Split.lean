/-!
# Splitting text at its last separator
-/

namespace CallAlign.Text

/-- What stands before and after the last `sep`, if there is one. -/
def splitLast? (sep : Char) : List Char → Option (List Char × List Char)
  | [] => none
  | c :: rest =>
    match splitLast? sep rest with
    | some (before, after) => some (c :: before, after)
    | none => if c = sep then some ([], rest) else none

/-- What stands after the last `sep`, or everything when there is none. -/
def afterLast (sep : Char) (text : List Char) : List Char :=
  match splitLast? sep text with
  | some (_, after) => after
  | none => text

theorem splitLast?_of_not_mem {sep : Char} {text : List Char} (h : sep ∉ text) :
    splitLast? sep text = none := by
  induction text with
  | nil => rfl
  | cons c rest ih =>
    rw [List.mem_cons, not_or] at h
    rw [splitLast?, ih h.2]
    exact if_neg (Ne.symm h.1)

/-- Behind a separator it is the rest that decides where the last one stands. -/
theorem splitLast?_append_sep (sep : Char) (front text : List Char) :
    splitLast? sep (front ++ sep :: text) =
      some ((splitLast? sep text).elim (front, text) fun (before, after) =>
        (front ++ sep :: before, after)) := by
  induction front with
  | nil =>
    rw [List.nil_append, splitLast?]
    cases splitLast? sep text with
    | none => exact if_pos rfl
    | some parts => rfl
  | cons c front ih =>
    rw [List.cons_append, splitLast?, ih]
    cases splitLast? sep text <;> rfl

theorem splitLast?_append {sep : Char} {text : List Char} (h : sep ∉ text) (front : List Char) :
    splitLast? sep (front ++ sep :: text) = some (front, text) := by
  rw [splitLast?_append_sep, splitLast?_of_not_mem h]
  rfl

theorem afterLast_of_not_mem {sep : Char} {text : List Char} (h : sep ∉ text) :
    afterLast sep text = text := by
  rw [afterLast, splitLast?_of_not_mem h]

theorem afterLast_append_sep (sep : Char) (front text : List Char) :
    afterLast sep (front ++ sep :: text) = afterLast sep text := by
  rw [afterLast, afterLast, splitLast?_append_sep]
  cases splitLast? sep text <;> rfl

example : splitLast? '/' ['a', '/', 'b', '/'] = some (['a', '/', 'b'], []) := by decide

end CallAlign.Text
