import Mathlib.Data.List.Induction
import Mathlib.Logic.Function.Basic
import CallAlign.Alignment.Run

/-!
# What a run asks its resolver

Every call that is not skipped asks one question: a bare name asks for the class around it, a name
behind a receiver for the type of the receiver, a constructor for the type of its class. Nothing
else is asked, although the nodes of calls, of their parts and of all other expressions share one
space of identities.

**Theorem (`run_depends_on_answers`).** A table of types answers with the last entry for the
identity it is asked about, and with its last fallback where it has none for a class. And two
resolvers that answer the questions of a request alike give the same run, result and events, so
what a resolver says to any other question has no effect.

For the table one lemma serves all three kinds of entries: a part of the table that an entry either
overwrites or leaves alone holds what the last entry wrote to it.
-/

namespace CallAlign

/-! ## Tables -/

namespace TypeTable

/-- The type that the entry records for `id`. -/
def Entry.typeFor? (id : NodeId) : Entry → Option ExprType
  | .type other known => if other = id then some known else none
  | .enclosing _ _ | .fallback _ => none

/-- The class that the entry records around `id` alone. -/
def Entry.classFor? (id : NodeId) : Entry → Option BinaryName
  | .enclosing other name => if other = id then some name else none
  | .type _ _ | .fallback _ => none

/-- The class that the entry records around all other nodes. -/
def Entry.fallback? : Entry → Option BinaryName
  | .fallback name => some name
  | .type _ _ | .enclosing _ _ => none

theorem types_add (table : TypeTable) (e : Entry) (id : NodeId) :
    (table.add e).types[id]? = (e.typeFor? id).or table.types[id]? := by
  cases e with
  | type other known =>
    by_cases h : other = id <;> simp [add, Entry.typeFor?, Std.HashMap.getElem?_insert, h]
  | enclosing => rfl
  | fallback => rfl

theorem enclosing_add (table : TypeTable) (e : Entry) (id : NodeId) :
    (table.add e).enclosing[id]? = (e.classFor? id).or table.enclosing[id]? := by
  cases e with
  | type => rfl
  | enclosing other name =>
    by_cases h : other = id <;> simp [add, Entry.classFor?, Std.HashMap.getElem?_insert, h]
  | fallback => rfl

theorem fallback_add (table : TypeTable) (e : Entry) :
    (table.add e).fallback = e.fallback?.or table.fallback := by
  cases e <;> rfl

/-- What entries overwrite or leave alone holds what the last of them wrote. -/
theorem view_ofEntries {α : Type} (view : TypeTable → Option α) (record : Entry → Option α)
    (hempty : view empty = none)
    (hadd : ∀ table e, view (table.add e) = (record e).or (view table)) (entries : List Entry) :
    view (ofEntries entries) = (entries.filterMap record).getLast? := by
  induction entries using List.reverseRecOn with
  | nil => exact hempty
  | append_singleton entries e ih =>
    have hlast : ofEntries (entries ++ [e]) = (ofEntries entries).add e := by simp [ofEntries]
    rw [hlast, hadd, ih, List.filterMap_append, List.getLast?_append]
    cases h : record e <;> simp [h]

theorem typeOf_ofEntries (entries : List Entry) (id : NodeId) :
    (ofEntries entries).toResolver.typeOf id =
      (entries.filterMap (Entry.typeFor? id)).getLast?.getD .unknown := by
  have hview : (ofEntries entries).types[id]? = (entries.filterMap (Entry.typeFor? id)).getLast? :=
    view_ofEntries (fun table => table.types[id]?) (Entry.typeFor? id) (by simp [empty])
      (fun table e => types_add table e id) entries
  rw [← hview]
  exact Std.HashMap.getD_eq_getD_getElem?

theorem enclosingClass_ofEntries (entries : List Entry) (id : NodeId) :
    (ofEntries entries).toResolver.enclosingClass id =
      (entries.filterMap (Entry.classFor? id)).getLast?.or
        (entries.filterMap Entry.fallback?).getLast? := by
  have hclass : (ofEntries entries).enclosing[id]? =
      (entries.filterMap (Entry.classFor? id)).getLast? :=
    view_ofEntries (fun table => table.enclosing[id]?) (Entry.classFor? id) (by simp [empty])
      (fun table e => enclosing_add table e id) entries
  have hfallback : (ofEntries entries).fallback = (entries.filterMap Entry.fallback?).getLast? :=
    view_ofEntries fallback Entry.fallback? rfl fallback_add entries
  rw [← hclass, ← hfallback]
  rfl

end TypeTable

/-! ## Questions -/

namespace Callee

/-- The expression whose type the callee asks for. -/
def typeQuestion? : Callee → Option NodeId
  | .identifier _ _ _ => none
  | .member _ _ receiver => some receiver.id
  | .constructor cls => some cls.id

/-- The node around which the callee asks for the class. -/
def classQuestion? : Callee → Option NodeId
  | .identifier id _ _ => some id
  | .member _ _ _ | .constructor _ => none

theorem declaringType_congr {callee : Callee} {resolver other : Resolver}
    (types : ∀ id, callee.typeQuestion? = some id → other.typeOf id = resolver.typeOf id)
    (classes : ∀ id, callee.classQuestion? = some id →
      other.enclosingClass id = resolver.enclosingClass id) :
    callee.declaringType other = callee.declaringType resolver := by
  cases callee with
  | identifier id name span => rw [declaringType, declaringType, classes id rfl]
  | member name span receiver => rw [declaringType, declaringType, types receiver.id rfl]
  | constructor cls => rw [declaringType, declaringType, types cls.id rfl]

end Callee

namespace Request

/-- The calls that are not skipped. -/
def keptCalls (request : Request) : List Call :=
  request.calls.filter fun call => !request.skips call

/-- The expressions whose types a run may ask for: the classes of constructors and the receivers of
methods, in calls that are not skipped. -/
def typeQuestions (request : Request) : List NodeId :=
  request.keptCalls.filterMap fun call => call.callee.typeQuestion?

/-- The nodes around which a run may ask for the class: the bare names of methods, in calls that are
not skipped. -/
def classQuestions (request : Request) : List NodeId :=
  request.keptCalls.filterMap fun call => call.callee.classQuestion?

variable {request : Request} {other : Resolver}

/-- Where the calls that are not skipped invoke the same, matching goes the same way. -/
theorem matchCalls_congr {calls : List Call}
    (h : ∀ call ∈ calls, request.skips call = false →
      call.site other = call.site request.resolver) (cursor : Cursor) :
    { request with resolver := other }.matchCalls cursor calls =
      request.matchCalls cursor calls := by
  induction calls generalizing cursor with
  | nil => rfl
  | cons call rest ih =>
    have hrest := ih fun later hlater => h later (List.mem_cons_of_mem _ hlater)
    have hskips : { request with resolver := other }.skips call = request.skips call := rfl
    simp only [matchCalls, hskips, hrest]
    split
    · rfl
    · by_cases hskip : request.skips call = true
      · rw [if_pos hskip, if_pos hskip]
      · rw [if_neg hskip, if_neg hskip, h call List.mem_cons_self (eq_false_of_ne_true hskip)]
        rfl

/-- Resolvers that answer the questions of a request alike give the same run. -/
theorem run_congr
    (types : ∀ id ∈ request.typeQuestions, other.typeOf id = request.resolver.typeOf id)
    (classes : ∀ id ∈ request.classQuestions,
      other.enclosingClass id = request.resolver.enclosingClass id) :
    { request with resolver := other }.run = request.run := by
  have hsites : ∀ call ∈ request.calls, request.skips call = false →
      call.site other = call.site request.resolver := by
    intro call hcall hskip
    have hkept : call ∈ request.keptCalls := List.mem_filter.2 ⟨hcall, by simp [hskip]⟩
    rw [Call.site, Call.site, Callee.declaringType_congr]
    · intro id hid
      exact types id (List.mem_filterMap.2 ⟨call, hkept, hid⟩)
    · intro id hid
      exact classes id (List.mem_filterMap.2 ⟨call, hkept, hid⟩)
  have hmatch := matchCalls_congr hsites (.start request.ranges)
  unfold run
  cases request.ranges.excess? request.code.size with
  | some fault => rfl
  | none =>
    exact congrArg (Run.map fun operations : List Operation => (⟨operations.toArray⟩ : Alignment))
      hmatch

/-- **Runs depend on answers alone.** A table of types gives the type of the last entry for an
expression, else none, and as the class around a node that of the last entry for the node, else the
last fallback, else none, in whatever order entries of the three kinds come. Resolvers that answer
the questions of a request alike give the same run; in particular a type or a class that is not
asked for can be replaced by any other. -/
theorem run_depends_on_answers (entries : List TypeTable.Entry) (request : Request) :
    (∀ id, (TypeTable.ofEntries entries).toResolver.typeOf id =
        (entries.filterMap (TypeTable.Entry.typeFor? id)).getLast?.getD .unknown ∧
      (TypeTable.ofEntries entries).toResolver.enclosingClass id =
        (entries.filterMap (TypeTable.Entry.classFor? id)).getLast?.or
          (entries.filterMap TypeTable.Entry.fallback?).getLast?) ∧
    (∀ other : Resolver,
      (∀ id ∈ request.typeQuestions, other.typeOf id = request.resolver.typeOf id) →
      (∀ id ∈ request.classQuestions,
        other.enclosingClass id = request.resolver.enclosingClass id) →
      { request with resolver := other }.run = request.run ∧
        { request with resolver := other }.align = request.align) ∧
    (∀ id, id ∉ request.typeQuestions → ∀ type : ExprType,
      { request with resolver :=
        { request.resolver with
          typeOf := Function.update request.resolver.typeOf id type } }.align = request.align) ∧
    (∀ id, id ∉ request.classQuestions → ∀ class? : Option BinaryName,
      { request with resolver :=
        { request.resolver with
          enclosingClass := Function.update request.resolver.enclosingClass id class? } }.align =
            request.align) := by
  refine ⟨?_, ?_, ?_, ?_⟩
  · intro id
    exact ⟨TypeTable.typeOf_ofEntries entries id, TypeTable.enclosingClass_ofEntries entries id⟩
  · intro other types classes
    have hrun := run_congr types classes
    exact ⟨hrun, congrArg Run.result hrun⟩
  · intro id hid type
    refine congrArg Run.result (run_congr (fun asked hasked => ?_) fun _ _ => rfl)
    exact Function.update_of_ne (ne_of_mem_of_not_mem hasked hid) _ _
  · intro id hid class?
    refine congrArg Run.result (run_congr (fun _ _ => rfl) fun asked hasked => ?_)
    exact Function.update_of_ne (ne_of_mem_of_not_mem hasked hid) _ _

/-- A block with a skipped construction, a method of a receiver, and a bare name with the identity
of its own call. -/
def twoQuestions : Request where
  nodes :=
    [.other ⟨3⟩ { start := 0, stop := 24 },
     .call ⟨⟨1⟩, { start := 2, stop := 9 }, .constructor ⟨⟨2⟩, { start := 6, stop := 7 }⟩, true⟩,
     .call ⟨⟨4⟩, { start := 11, stop := 16 },
      .member "b" { start := 11, stop := 14 } ⟨⟨5⟩, { start := 11, stop := 12 }⟩, false⟩,
     .call ⟨⟨6⟩, { start := 18, stop := 21 },
      .identifier ⟨6⟩ "c" { start := 18, stop := 19 }, false⟩]
  ranges := ⟨[⟨0, 9⟩], by decide, by decide⟩
  code := ⟨#[183, 0, 0, 182, 0, 0, 184, 0, 0], by decide⟩
  resolver := TypeTable.toResolver <| .ofEntries
    [.type ⟨5⟩ .unknown, .fallback ⟨"A"⟩, .type ⟨5⟩ (.declared ⟨"B"⟩)]
  lineIndex := .ofText "{ new A(); x.b(); c(); }"

/-- Answers as in `twoQuestions` where it asks, and other ones elsewhere. -/
def talkative : Resolver where
  typeOf id := if id = ⟨5⟩ then .declared ⟨"B"⟩ else .declared ⟨"C"⟩
  enclosingClass id := if id = ⟨6⟩ then some ⟨"A"⟩ else none

theorem align_talkative_eq :
    twoQuestions.typeQuestions = [⟨5⟩] ∧ twoQuestions.classQuestions = [⟨6⟩] ∧
      { twoQuestions with resolver := talkative }.align = twoQuestions.align := by
  have htypes : twoQuestions.typeQuestions = [⟨5⟩] := by decide
  have hclasses : twoQuestions.classQuestions = [⟨6⟩] := by decide
  obtain ⟨hanswers, hrun, -⟩ := run_depends_on_answers
    [.type ⟨5⟩ .unknown, .fallback ⟨"A"⟩, .type ⟨5⟩ (.declared ⟨"B"⟩)] twoQuestions
  refine ⟨htypes, hclasses, (hrun talkative ?_ ?_).2⟩
  · rw [htypes]
    intro id hid
    rw [List.mem_singleton.1 hid]
    exact (hanswers ⟨5⟩).1.symm
  · rw [hclasses]
    intro id hid
    rw [List.mem_singleton.1 hid]
    exact (hanswers ⟨6⟩).2.symm

end Request

end CallAlign
