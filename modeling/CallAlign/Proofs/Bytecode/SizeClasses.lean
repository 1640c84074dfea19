import CallAlign.Bytecode.InstructionSet

/-!
# Size classes of opcodes

A table of all opcodes in order, each block with its size class. The instruction set knows the same
classes by exceptions: what it does not list is a single byte. Here nothing is left to a default, so
the table can say what an opcode takes without asking how it is decoded.

**Theorem (`hasClass_iff`).** An opcode belongs to the class of its form and to no other.

No opcode is looked at for this. Blocks of the two lists that meet have one form, and a block that
is not a single byte stands in both; what holds an opcode in the one then tells its form in the
other.
-/

namespace CallAlign.Opcode

/-- The size classes of all opcodes in order, without a gap. -/
def sizeClasses : List FormGroup :=
  [⟨0, 15, .fixed 1⟩, ⟨16, 16, .fixed 2⟩, ⟨17, 17, .fixed 3⟩, ⟨18, 18, .fixed 2⟩,
   ⟨19, 20, .fixed 3⟩, ⟨21, 25, .fixed 2⟩, ⟨26, 53, .fixed 1⟩, ⟨54, 58, .fixed 2⟩,
   ⟨59, 86, .fixed 1⟩, ⟨87, 94, .fixed 1⟩, ⟨95, 131, .fixed 1⟩, ⟨132, 132, .fixed 3⟩,
   ⟨133, 147, .fixed 1⟩, ⟨148, 152, .fixed 1⟩, ⟨153, 168, .fixed 3⟩, ⟨169, 169, .fixed 2⟩,
   ⟨170, 170, .tableSwitch⟩, ⟨171, 171, .lookupSwitch⟩, ⟨172, 177, .fixed 1⟩,
   ⟨178, 184, .fixed 3⟩, ⟨185, 185, .fixed 5⟩, ⟨186, 186, .fixed 1⟩, ⟨187, 187, .fixed 3⟩,
   ⟨188, 188, .fixed 2⟩, ⟨189, 189, .fixed 3⟩, ⟨190, 191, .fixed 1⟩, ⟨192, 193, .fixed 3⟩,
   ⟨194, 195, .fixed 1⟩, ⟨196, 196, .wide⟩, ⟨197, 197, .fixed 4⟩, ⟨198, 199, .fixed 3⟩,
   ⟨200, 201, .fixed 5⟩, ⟨202, 255, .fixed 1⟩]

/-- `form` is the form of a class that `op` belongs to. -/
def HasClass (op : Opcode) (form : Form) : Prop :=
  ∃ g ∈ sizeClasses, g.form = form ∧ g.first ≤ op.toNat ∧ op.toNat ≤ g.last

theorem form_of_mem_sizeClasses {op : Opcode} {g : FormGroup} (hg : g ∈ sizeClasses)
    (hfirst : g.first ≤ op.toNat) (hlast : op.toNat ≤ g.last) : op.form = g.form := by
  have hmeet : ∀ g ∈ sizeClasses, ∀ h ∈ formGroups,
      h.last < g.first ∨ g.last < h.first ∨ h.form = g.form := by decide +kernel
  have hlisted : ∀ g ∈ sizeClasses, g.form = .fixed 1 ∨ g ∈ formGroups := by decide +kernel
  unfold form
  cases hfind : formGroups.find? fun g => g.first ≤ op.toNat && op.toNat ≤ g.last with
  | some h =>
    -- Both groups hold `op`, so they meet.
    have hholds := List.find?_some hfind
    simp only [Bool.and_eq_true, decide_eq_true_eq] at hholds
    rcases hmeet g hg h (List.mem_of_find?_eq_some hfind) with hbefore | hbehind | hform
    · omega
    · omega
    · exact hform
  | none =>
    rw [List.find?_eq_none] at hfind
    rcases hlisted g hg with hform | hmem
    · exact hform.symm
    · exact absurd (by simp [hfirst, hlast]) (hfind g hmem)

theorem exists_mem_sizeClasses (op : Opcode) :
    ∃ g ∈ sizeClasses, g.first ≤ op.toNat ∧ op.toNat ≤ g.last := by
  have hlt : op.toNat < 256 := op.toNat_lt
  simp only [sizeClasses, List.mem_cons, exists_eq_or_imp, List.not_mem_nil, false_and,
    exists_false]
  omega

/-- An opcode belongs to the class of its form and to no other. -/
theorem hasClass_iff {op : Opcode} {form : Form} : op.HasClass form ↔ op.form = form := by
  constructor
  · rintro ⟨g, hg, rfl, hfirst, hlast⟩
    exact form_of_mem_sizeClasses hg hfirst hlast
  · rintro rfl
    obtain ⟨g, hg, hfirst, hlast⟩ := exists_mem_sizeClasses op
    exact ⟨g, hg, (form_of_mem_sizeClasses hg hfirst hlast).symm, hfirst, hlast⟩

/-! ## Opcodes that decide the size alone -/

def tableswitch : Opcode := 170

def lookupswitch : Opcode := 171

def wide : Opcode := 196

/-- Neither a switch nor `wide`. -/
def Ordinary (op : Opcode) : Prop := op ≠ tableswitch ∧ op ≠ lookupswitch ∧ op ≠ wide

instance (op : Opcode) : Decidable op.Ordinary := inferInstanceAs (Decidable (_ ∧ _ ∧ _))

/-- The size that the table gives an instruction whose opcode alone decides it. -/
def fixedSize (op : Opcode) : Nat :=
  match sizeClasses.find? (fun g => g.first ≤ op.toNat && op.toNat ≤ g.last) with
  | some ⟨_, _, .fixed size⟩ => size
  | _ => 0

theorem hasClass_of_ordinary {op : Opcode} (h : op.Ordinary) :
    op.HasClass (.fixed op.fixedSize) := by
  have hblocks : ∀ g ∈ sizeClasses, (∃ size, g.form = .fixed size) ∨
      g.first = g.last ∧ (g.last = 170 ∨ g.last = 171 ∨ g.last = 196) := by
    simp [sizeClasses]
  obtain ⟨holding, hholding, hfirst, hlast⟩ := exists_mem_sizeClasses op
  cases hfind : sizeClasses.find? fun g => g.first ≤ op.toNat && op.toNat ≤ g.last with
  | none => exact absurd (by simp [hfirst, hlast]) (List.find?_eq_none.1 hfind holding hholding)
  | some g =>
    have hmem := List.mem_of_find?_eq_some hfind
    have hholds := List.find?_some hfind
    simp only [Bool.and_eq_true, decide_eq_true_eq] at hholds
    rcases hblocks g hmem with ⟨size, hform⟩ | ⟨hsingle, hspecial⟩
    · refine ⟨g, hmem, ?_, hholds⟩
      obtain ⟨first, last, form⟩ := g
      subst hform
      simp only [fixedSize, hfind]
    · -- The block is one opcode, and not an ordinary one.
      obtain ⟨htable, hlookup, hwide⟩ := h
      have hnumber : op.toNat = g.last := by omega
      rcases hspecial with hlast | hlast | hlast
      · exact (htable (UInt8.toNat_inj.1 (hnumber.trans hlast))).elim
      · exact (hlookup (UInt8.toNat_inj.1 (hnumber.trans hlast))).elim
      · exact (hwide (UInt8.toNat_inj.1 (hnumber.trans hlast))).elim

/-- An ordinary opcode decides the size of its instruction. -/
theorem form_of_ordinary {op : Opcode} (h : op.Ordinary) : op.form = .fixed op.fixedSize :=
  hasClass_iff.1 (hasClass_of_ordinary h)

end CallAlign.Opcode
