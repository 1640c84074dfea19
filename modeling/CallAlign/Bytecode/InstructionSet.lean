/-!
# The instruction set

The JVM instruction set as far as stepping through code needs it: for every opcode byte its
mnemonic, whether it invokes a method, and the form that decides the size of its instruction.

Every byte has a form. Bytes that name no instruction, and `invokedynamic`, stand alone.
-/

namespace CallAlign

/-- The byte that opens an instruction. -/
abbrev Opcode := UInt8

/-- What decides the size of an instruction in bytes. -/
inductive Form where
  /-- The size is the same everywhere. -/
  | fixed (size : Nat)
  /-- Padding, then a default, a low and a high key, then one jump offset for each key between. -/
  | tableSwitch
  /-- Padding, then a default and a pair count, then that many pairs of key and jump offset. -/
  | lookupSwitch
  /-- The opcode that follows decides. -/
  | wide
  deriving DecidableEq, Repr

/-- A block of consecutive opcodes of one form. -/
structure FormGroup where
  first : Nat
  last : Nat
  form : Form
  deriving DecidableEq, Repr

namespace Opcode

/-- `iinc`, the one opcode that `wide` gives two operands of two bytes. -/
def iinc : Opcode := 132

/-- The forms that are not a single byte, by blocks of opcodes in increasing order. -/
def formGroups : List FormGroup :=
  [⟨16, 16, .fixed 2⟩, ⟨17, 17, .fixed 3⟩, ⟨18, 18, .fixed 2⟩, ⟨19, 20, .fixed 3⟩,
   ⟨21, 25, .fixed 2⟩, ⟨54, 58, .fixed 2⟩, ⟨132, 132, .fixed 3⟩, ⟨153, 168, .fixed 3⟩,
   ⟨169, 169, .fixed 2⟩, ⟨170, 170, .tableSwitch⟩, ⟨171, 171, .lookupSwitch⟩,
   ⟨178, 184, .fixed 3⟩, ⟨185, 185, .fixed 5⟩, ⟨187, 187, .fixed 3⟩, ⟨188, 188, .fixed 2⟩,
   ⟨189, 189, .fixed 3⟩, ⟨192, 193, .fixed 3⟩, ⟨196, 196, .wide⟩, ⟨197, 197, .fixed 4⟩,
   ⟨198, 199, .fixed 3⟩, ⟨200, 201, .fixed 5⟩]

/-- The form of the instruction that `op` opens. -/
def form (op : Opcode) : Form :=
  match formGroups.find? (fun g => g.first ≤ op.toNat && op.toNat ≤ g.last) with
  | some g => g.form
  | none => .fixed 1

/-- Whether `op` invokes a method by a virtual, special, static or interface call. -/
def isCall (op : Opcode) : Bool := 182 ≤ op.toNat && op.toNat ≤ 185

/-- The mnemonics of the opcodes from 0 on, without gaps. -/
def mnemonics : Array String :=
  #["nop", "aconst_null", "iconst_m1", "iconst_0", "iconst_1", "iconst_2", "iconst_3", "iconst_4",
    "iconst_5", "lconst_0", "lconst_1", "fconst_0", "fconst_1", "fconst_2", "dconst_0",
    "dconst_1", "bipush", "sipush", "ldc", "ldc_w", "ldc2_w", "iload", "lload", "fload", "dload",
    "aload", "iload_0", "iload_1", "iload_2", "iload_3", "lload_0", "lload_1", "lload_2",
    "lload_3", "fload_0", "fload_1", "fload_2", "fload_3", "dload_0", "dload_1", "dload_2",
    "dload_3", "aload_0", "aload_1", "aload_2", "aload_3", "iaload", "laload", "faload", "daload",
    "aaload", "baload", "caload", "saload", "istore", "lstore", "fstore", "dstore", "astore",
    "istore_0", "istore_1", "istore_2", "istore_3", "lstore_0", "lstore_1", "lstore_2",
    "lstore_3", "fstore_0", "fstore_1", "fstore_2", "fstore_3", "dstore_0", "dstore_1",
    "dstore_2", "dstore_3", "astore_0", "astore_1", "astore_2", "astore_3", "iastore", "lastore",
    "fastore", "dastore", "aastore", "bastore", "castore", "sastore", "pop", "pop2", "dup",
    "dup_x1", "dup_x2", "dup2", "dup2_x1", "dup2_x2", "swap", "iadd", "ladd", "fadd", "dadd",
    "isub", "lsub", "fsub", "dsub", "imul", "lmul", "fmul", "dmul", "idiv", "ldiv", "fdiv",
    "ddiv", "irem", "lrem", "frem", "drem", "ineg", "lneg", "fneg", "dneg", "ishl", "lshl",
    "ishr", "lshr", "iushr", "lushr", "iand", "land", "ior", "lor", "ixor", "lxor", "iinc", "i2l",
    "i2f", "i2d", "l2i", "l2f", "l2d", "f2i", "f2l", "f2d", "d2i", "d2l", "d2f", "i2b", "i2c",
    "i2s", "lcmp", "fcmpl", "fcmpg", "dcmpl", "dcmpg", "ifeq", "ifne", "iflt", "ifge", "ifgt",
    "ifle", "if_icmpeq", "if_icmpne", "if_icmplt", "if_icmpge", "if_icmpgt", "if_icmple",
    "if_acmpeq", "if_acmpne", "goto", "jsr", "ret", "tableswitch", "lookupswitch", "ireturn",
    "lreturn", "freturn", "dreturn", "areturn", "return", "getstatic", "putstatic", "getfield",
    "putfield", "invokevirtual", "invokespecial", "invokestatic", "invokeinterface",
    "invokedynamic", "new", "newarray", "anewarray", "arraylength", "athrow", "checkcast",
    "instanceof", "monitorenter", "monitorexit", "wide", "multianewarray", "ifnull", "ifnonnull",
    "goto_w", "jsr_w", "breakpoint"]

/-- The assembler name of `op`, or `<reserved>` for a byte that names no instruction. -/
def mnemonic (op : Opcode) : String :=
  if op.toNat = 254 then "impdep1"
  else if op.toNat = 255 then "impdep2"
  else mnemonics[op.toNat]?.getD "<reserved>"

example : mnemonics.size = 203 := rfl

end Opcode

end CallAlign
