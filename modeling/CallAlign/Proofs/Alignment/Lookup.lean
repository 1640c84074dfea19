import CallAlign.Proofs.Alignment.ClaimOrder
import CallAlign.Proofs.Alignment.Composition
import CallAlign.Proofs.Alignment.PositionOrder
import CallAlign.Proofs.Alignment.ResolverLocality
import CallAlign.Proofs.Alignment.WrittenForms

/-!
# Looking operations up

An alignment is asked for the operation at a code offset, which it finds by bisection, and for the
operation of a node, which it finds from front to back.

**Theorem (`lookups_find_operations`).** In an alignment of a request, bisection finds what a search
from front to back would find, and every operation at its own offset. A node that has a call which
is not skipped has an operation, that of its first such call, and other nodes have none. All this
holds as well for the alignment that is read back from data.

Bisection needs the offsets to increase. The type of alignments does not say so and reading does not
check it; it comes from the request, whose calls take instructions in the order of the code. Nodes
are found by the pairs of calls and instructions that the operations are made of, one by one.
-/

namespace CallAlign

/-! ## Searching a list -/

/-- Where a list splits at `k` by increasing keys stands what a search from front to back finds. -/
theorem getElem?_countP_eq_find? {α : Type} {key : α → Nat} {xs : List α}
    (increase : (xs.map key).Pairwise (· < ·)) (k : Nat) :
    xs[xs.countP fun x => key x < k]?.filter (fun x => key x = k) =
      xs.find? fun x => key x = k := by
  induction xs with
  | nil => rfl
  | cons x rest ih =>
    obtain ⟨hx, hrest⟩ := List.pairwise_cons.1 increase
    by_cases hlt : key x < k
    · rw [List.countP_cons_of_pos (by simpa using hlt), List.getElem?_cons_succ, ih hrest,
        List.find?_cons_of_neg (by simpa using Nat.ne_of_lt hlt)]
    · -- All later keys are greater still, so the head is the only one that can be `k`.
      have hlater : ∀ y ∈ rest, k < key y := by
        intro y hy
        have hxy := hx (key y) (List.mem_map_of_mem hy)
        omega
      have hcount : (x :: rest).countP (fun y => key y < k) = 0 := by
        rw [List.countP_eq_zero, List.forall_mem_cons]
        refine ⟨by simpa using hlt, fun y hy => ?_⟩
        simpa using Nat.le_of_lt (hlater y hy)
      rw [hcount, List.getElem?_cons_zero]
      by_cases hkey : key x = k
      · rw [List.find?_cons_of_pos (by simpa using hkey),
          Option.filter_some_pos (by simpa using hkey)]
      · have hnone : rest.find? (fun y => key y = k) = none := by
          rw [List.find?_eq_none]
          intro y hy
          simpa using Nat.ne_of_gt (hlater y hy)
        rw [List.find?_cons_of_neg (by simpa using hkey), hnone,
          Option.filter_some_neg (by simpa using hkey)]

/-- Among distinct keys every element is found by its own. -/
theorem find?_key_of_mem {α κ : Type} [DecidableEq κ] {key : α → κ} {xs : List α}
    (distinct : (xs.map key).Nodup) {x : α} (hx : x ∈ xs) :
    xs.find? (fun y => key y = key x) = some x := by
  cases hfind : xs.find? fun y => key y = key x with
  | none => simpa using List.find?_eq_none.1 hfind x hx
  | some y =>
    have hkey : key y = key x := by simpa using List.find?_some hfind
    rw [List.inj_on_of_nodup_map distinct (List.mem_of_find?_eq_some hfind) hx hkey]

/-- Lists that are related one by one are searched alike. -/
theorem find?_rel {α β : Type} {R : α → β → Prop} {p : α → Bool} {q : β → Bool} {as : List α}
    {bs : List β} (h : List.Forall₂ R as bs) (hpq : ∀ a b, R a b → p a = q b) :
    Option.Rel R (as.find? p) (bs.find? q) := by
  induction h with
  | nil => exact .none
  | @cons a b as bs hab _ ih =>
    by_cases hp : p a = true
    · rw [List.find?_cons_of_pos hp, List.find?_cons_of_pos (hpq a b hab ▸ hp)]
      exact .some hab
    · rw [List.find?_cons_of_neg hp, List.find?_cons_of_neg (hpq a b hab ▸ hp)]
      exact ih

/-! ## Searching an alignment -/

namespace Alignment

variable {a : Alignment}

theorem ofNode?_eq_find? (a : Alignment) (node : NodeId) :
    a.ofNode? node = a.operations.toList.find? fun op => op.node = node := by
  rw [ofNode?, Array.find?_toList]

/-- Increasing offsets make bisection a search from front to back. -/
theorem atOffset?_eq_find? (increase : a.bytecodeOffsets.Pairwise (· < ·)) (offset : Nat) :
    a.atOffset? offset = a.operations.toList.find? fun op => op.bytecodeOffset = offset := by
  have hsorted : a.operations.toList.Pairwise fun op later =>
      decide (later.bytecodeOffset < offset) = true →
        decide (op.bytecodeOffset < offset) = true := by
    refine (List.pairwise_map.1 increase).imp ?_
    intro op later hlt hlater
    rw [decide_eq_true_eq] at hlater ⊢
    omega
  have hbisect : bisect (a.comesBefore offset) 0 a.operations.size =
      a.operations.toList.countP fun op => op.bytecodeOffset < offset := by
    rw [← Array.length_toList]
    apply bisect_eq_countP hsorted
    intro i op hop
    rw [Array.getElem?_toList] at hop
    simp [comesBefore, hop]
  rw [atOffset?, hbisect, ← Array.getElem?_toList, getElem?_countP_eq_find? increase]

end Alignment

/-! ## The alignment of a request -/

theorem Settings.base_le_one (settings : Settings) : settings.base ≤ 1 := by
  unfold base
  split <;> decide

namespace Request

/-- How an alignment of the request's calls answers. -/
structure Answers (request : Request) (a : Alignment) : Prop where
  /-- By offset it finds what a search from front to back finds. -/
  atOffset (offset : Nat) :
    a.atOffset? offset = a.operations.toList.find? fun op => op.bytecodeOffset = offset
  /-- Every operation is found at its own offset. -/
  atOwnOffset : ∀ op ∈ a.operations, a.atOffset? op.bytecodeOffset = some op
  /-- By node it finds the operation of the first call of the node that is not skipped. -/
  ofNode (node : NodeId) : Option.Rel request.OperationOf
    ((request.keptPairs request.calls request.callOffsets).find? fun pair => pair.1.id = node)
    (a.ofNode? node)
  /-- It finds an operation for exactly the nodes of calls that are not skipped. -/
  isSome_ofNode (node : NodeId) :
    (a.ofNode? node).isSome = true ↔ ∃ call ∈ request.keptCalls, call.id = node
  /-- What it finds by node it finds again by offset. -/
  atOffset_of_ofNode (node : NodeId) (op : Operation) :
    a.ofNode? node = some op → a.atOffset? op.bytecodeOffset = some op
  /-- When no two calls that are not skipped share a node, every operation is found by its own. -/
  ofOwnNode : (request.keptCalls.map Call.id).Nodup → ∀ op ∈ a.operations,
    a.ofNode? op.node = some op

/-- The numbers that go into the positions of an alignment are 32-bit words, and the text is short
enough for its lines and columns to be words, too. -/
structure InWords (request : Request) (text : String) : Prop where
  index : request.lineIndex = .ofText text
  short : text.utf8ByteSize < UInt32.size - 1
  ids : ∀ call ∈ request.calls, call.id.number < UInt32.size
  spans : ∀ call ∈ request.calls,
    call.span.stop < UInt32.size ∧ call.callee.methodSpan.stop < UInt32.size

variable {request : Request} {alignment : Alignment}

theorem OperationOf.node {pair : Call × Nat} {op : Operation} (h : request.OperationOf pair op) :
    op.node = pair.1.id := by
  obtain ⟨site, -, rfl⟩ := h
  rfl

/-- With an instruction for every call, the pairs that are kept hold all calls that are kept. -/
theorem map_fst_keptPairs {calls : List Call} {offsets : List Nat}
    (h : calls.length ≤ offsets.length) :
    (request.keptPairs calls offsets).map Prod.fst =
      calls.filter fun call => !request.skips call := by
  have hzip : (calls.zip offsets).map Prod.fst = calls := List.map_fst_zip h
  nth_rewrite 2 [← hzip]
  rw [List.filter_map]
  rfl

/-- The operations of an alignment are those of the calls that are kept, one by one. -/
theorem forall₂_of_align (h : request.align = .ok alignment) :
    List.Forall₂ request.OperationOf (request.keptPairs request.calls request.callOffsets)
        alignment.operations.toList ∧
      (request.keptPairs request.calls request.callOffsets).map Prod.fst = request.keptCalls := by
  have hverdict := verdict_align request
  rw [h] at hverdict
  cases hverdict with
  | aligned fits free all made =>
    refine ⟨made, map_fst_keptPairs ?_⟩
    exact le_length_callOffsets (Nat.le_refl _) fun j _ => free j

/-- The nodes of the operations are those of the calls that are kept. -/
theorem nodes_of_align (h : request.align = .ok alignment) :
    alignment.operations.toList.map Operation.node = request.keptCalls.map Call.id := by
  obtain ⟨hmade, hkept⟩ := forall₂_of_align h
  rw [← hkept, List.map_map, ← List.forall₂_eq_eq_eq, List.forall₂_map_left_iff,
    List.forall₂_map_right_iff]
  apply List.Forall₂.flip
  exact hmade.imp fun pair op hop => hop.node

theorem answers_of_align (h : request.align = .ok alignment) : request.Answers alignment := by
  have hincrease := bytecodeOffsets_increasing h
  have hoffset := Alignment.atOffset?_eq_find? hincrease
  have hown : ∀ op ∈ alignment.operations, alignment.atOffset? op.bytecodeOffset = some op := by
    intro op hop
    rw [hoffset]
    exact find?_key_of_mem (hincrease.imp Nat.ne_of_lt) (Array.mem_toList_iff.2 hop)
  have hnodes := nodes_of_align h
  refine ⟨hoffset, hown, ?_, ?_, ?_, ?_⟩
  · intro node
    rw [Alignment.ofNode?_eq_find?]
    apply find?_rel (forall₂_of_align h).1
    intro pair op hop
    rw [hop.node]
  · intro node
    have hmem : node ∈ alignment.operations.toList.map Operation.node ↔
        node ∈ request.keptCalls.map Call.id := by rw [hnodes]
    rw [Alignment.ofNode?_eq_find?, List.find?_isSome]
    simpa using hmem
  · intro node op hfind
    rw [Alignment.ofNode?_eq_find?] at hfind
    exact hown op (Array.mem_toList_iff.1 (List.mem_of_find?_eq_some hfind))
  · intro hdistinct op hop
    rw [Alignment.ofNode?_eq_find?]
    exact find?_key_of_mem (hnodes ▸ hdistinct) (Array.mem_toList_iff.2 hop)

/-! ## Words -/

theorem position_fits {text : String} (hindex : request.lineIndex = .ofText text)
    (hshort : text.utf8ByteSize < UInt32.size - 1) {offset : Nat} (hoffset : offset < UInt32.size) :
    (request.position offset).Fits := by
  rw [position, hindex]
  obtain ⟨hline, hcolumn⟩ :=
    LineIndex.position_lt_size hshort offset request.settings.base_le_one
  exact ⟨hoffset, hline, hcolumn⟩

/-- A request in words is aligned in words. -/
theorem fits_of_align {text : String} (words : request.InWords text)
    (h : request.align = .ok alignment) : ∀ op ∈ alignment.operations, op.Fits := by
  intro op hop
  obtain ⟨call, hcall, offset, hoffset, site, hsite, rfl⟩ := exists_call_of_mem h hop
  have hposition : ∀ {offset : Nat}, offset < UInt32.size → (request.position offset).Fits :=
    position_fits words.index words.short
  obtain ⟨hspan, hmethod⟩ := words.spans call hcall
  rw [← Call.methodSpan_of_site hsite] at hmethod
  obtain ⟨r, -, hr⟩ := Code.mem_callsInAll hoffset
  obtain ⟨-, opcode, hbyte, -⟩ := Code.mem_callsIn hr
  have hcode : request.code.size < UInt64.size := Nat.lt_trans request.code.size_lt (by decide)
  exact {
    node := words.ids call hcall
    startPosition := hposition (Nat.lt_of_le_of_lt call.span.start_le_stop hspan)
    endPosition := hposition hspan
    methodStartPosition := hposition (Nat.lt_of_le_of_lt site.methodSpan.start_le_stop hmethod)
    methodEndPosition := hposition hmethod
    bytecodeOffset := Nat.lt_trans (Code.lt_size_of_byte? hbyte) hcode }

/-- **Lookups find operations.** An alignment of a request answers as `Answers` says, and its pairs
of calls and instructions hold every call that is not skipped. So does the alignment read back from
its data, whenever its numbers are words; and they are if those of the request are. -/
theorem lookups_find_operations (request : Request) (alignment : Alignment)
    (h : request.align = .ok alignment) :
    request.Answers alignment ∧
    (request.keptPairs request.calls request.callOffsets).map Prod.fst = request.keptCalls ∧
    ((∀ op ∈ alignment.operations, op.Fits) →
      ∃ again, Alignment.ofValue alignment.toValue = .ok again ∧ request.Answers again) ∧
    (∀ text, request.InWords text → ∀ op ∈ alignment.operations, op.Fits) := by
  have hanswers := answers_of_align h
  refine ⟨hanswers, (forall₂_of_align h).2, ?_, ?_⟩
  · intro fits
    exact ⟨alignment, Alignment.ofValue_of_written fits alignment.writtenAs_toValue, hanswers⟩
  · intro text words
    exact fits_of_align words h

/-- Three constructions with one node, of which the first is skipped, around one with another. -/
def repeatedNode : Request where
  nodes :=
    [.call ⟨⟨1⟩, { start := 0, stop := 0 }, .constructor ⟨⟨1⟩, { start := 0, stop := 0 }⟩, true⟩,
     construction 1, construction 2, construction 1]
  ranges := ⟨[⟨0, 12⟩], by decide, by decide⟩
  code := ⟨#[183, 0, 0, 183, 0, 0, 183, 0, 0, 183, 0, 0], by decide⟩
  resolver := ⟨fun _ => .declared ⟨"A"⟩, fun _ => none⟩
  lineIndex := .ofText "new A()"

/-- The alignment of `repeatedNode`. -/
def repeatedNodeAlignment : Alignment :=
  ⟨#[constructionAt 1 3, constructionAt 2 6, constructionAt 1 9]⟩

theorem lookups_repeatedNode :
    repeatedNode.align = .ok repeatedNodeAlignment ∧
    repeatedNodeAlignment.ofNode? ⟨1⟩ = some (constructionAt 1 3) ∧
    repeatedNodeAlignment.atOffset? 9 = some (constructionAt 1 9) ∧
    repeatedNodeAlignment.atOffset? 0 = none ∧
    ∃ again, Alignment.ofValue repeatedNodeAlignment.toValue = .ok again ∧
      repeatedNode.Answers again := by
  have halign : repeatedNode.align = .ok repeatedNodeAlignment := by decide +kernel
  obtain ⟨hanswers, -, hagain, hfits⟩ := lookups_find_operations _ _ halign
  have hwords : repeatedNode.InWords "new A()" := ⟨rfl, by decide, by decide, by decide⟩
  refine ⟨halign, by decide, hanswers.atOwnOffset (constructionAt 1 9) ?_, ?_,
    hagain (hfits "new A()" hwords)⟩
  · simp [repeatedNodeAlignment]
  · rw [hanswers.atOffset]
    decide

end Request

end CallAlign
