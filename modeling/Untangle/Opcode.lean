/-!
# Opcodes

The numbers of the machine's instructions and the names they go by. Only the numbers that other
modules speak of have a name here; the table of mnemonics is complete.
-/

namespace Untangle.Opcode

/-- The mnemonics of opcodes 0 to 201, in order. -/
def mnemonics : List String :=
  ["nop", "aconst_null", "iconst_m1", "iconst_0", "iconst_1", "iconst_2", "iconst_3", "iconst_4",
   "iconst_5", "lconst_0", "lconst_1", "fconst_0", "fconst_1", "fconst_2", "dconst_0", "dconst_1",
   "bipush", "sipush", "ldc", "ldc_w", "ldc2_w", "iload", "lload", "fload", "dload", "aload",
   "iload_0", "iload_1", "iload_2", "iload_3", "lload_0", "lload_1", "lload_2", "lload_3",
   "fload_0", "fload_1", "fload_2", "fload_3", "dload_0", "dload_1", "dload_2", "dload_3",
   "aload_0", "aload_1", "aload_2", "aload_3", "iaload", "laload", "faload", "daload", "aaload",
   "baload", "caload", "saload", "istore", "lstore", "fstore", "dstore", "astore", "istore_0",
   "istore_1", "istore_2", "istore_3", "lstore_0", "lstore_1", "lstore_2", "lstore_3", "fstore_0",
   "fstore_1", "fstore_2", "fstore_3", "dstore_0", "dstore_1", "dstore_2", "dstore_3", "astore_0",
   "astore_1", "astore_2", "astore_3", "iastore", "lastore", "fastore", "dastore", "aastore",
   "bastore", "castore", "sastore", "pop", "pop2", "dup", "dup_x1", "dup_x2", "dup2", "dup2_x1",
   "dup2_x2", "swap", "iadd", "ladd", "fadd", "dadd", "isub", "lsub", "fsub", "dsub", "imul",
   "lmul", "fmul", "dmul", "idiv", "ldiv", "fdiv", "ddiv", "irem", "lrem", "frem", "drem", "ineg",
   "lneg", "fneg", "dneg", "ishl", "lshl", "ishr", "lshr", "iushr", "lushr", "iand", "land", "ior",
   "lor", "ixor", "lxor", "iinc", "i2l", "i2f", "i2d", "l2i", "l2f", "l2d", "f2i", "f2l", "f2d",
   "d2i", "d2l", "d2f", "i2b", "i2c", "i2s", "lcmp", "fcmpl", "fcmpg", "dcmpl", "dcmpg", "ifeq",
   "ifne", "iflt", "ifge", "ifgt", "ifle", "if_icmpeq", "if_icmpne", "if_icmplt", "if_icmpge",
   "if_icmpgt", "if_icmple", "if_acmpeq", "if_acmpne", "goto", "jsr", "ret", "tableswitch",
   "lookupswitch", "ireturn", "lreturn", "freturn", "dreturn", "areturn", "return", "getstatic",
   "putstatic", "getfield", "putfield", "invokevirtual", "invokespecial", "invokestatic",
   "invokeinterface", "invokedynamic", "new", "newarray", "anewarray", "arraylength", "athrow",
   "checkcast", "instanceof", "monitorenter", "monitorexit", "wide", "multianewarray", "ifnull",
   "ifnonnull", "goto_w", "jsr_w"]

/-- The mnemonic of an opcode, `<invalid>` for one the machine does not have. -/
def mnemonic (opcode : UInt8) : String := mnemonics.getD opcode.toNat "<invalid>"

def nop : UInt8 := 0x00
def aconstNull : UInt8 := 0x01
def iconst0 : UInt8 := 0x03
def lconst0 : UInt8 := 0x09
def fconst0 : UInt8 := 0x0b
def dconst0 : UInt8 := 0x0e
def bipush : UInt8 := 0x10
def sipush : UInt8 := 0x11
def ldc : UInt8 := 0x12
def ldcW : UInt8 := 0x13
def ldc2W : UInt8 := 0x14
def iload : UInt8 := 0x15
def iload0 : UInt8 := 0x1a
def baload : UInt8 := 0x33
def caload : UInt8 := 0x34
def istore : UInt8 := 0x36
def istore0 : UInt8 := 0x3b
def aastore : UInt8 := 0x53
def bastore : UInt8 := 0x54
def castore : UInt8 := 0x55
def pop : UInt8 := 0x57
def iadd : UInt8 := 0x60
def ishl : UInt8 := 0x78
def iinc : UInt8 := 0x84
def ifeq : UInt8 := 0x99
def goto : UInt8 := 0xa7
def jsr : UInt8 := 0xa8
def ret : UInt8 := 0xa9
def tableswitch : UInt8 := 0xaa
def lookupswitch : UInt8 := 0xab
def ireturn : UInt8 := 0xac
def vreturn : UInt8 := 0xb1
def getstatic : UInt8 := 0xb2
def invokevirtual : UInt8 := 0xb6
def invokeinterface : UInt8 := 0xb9
def invokedynamic : UInt8 := 0xba
def new : UInt8 := 0xbb
def newarray : UInt8 := 0xbc
def anewarray : UInt8 := 0xbd
def athrow : UInt8 := 0xbf
def checkcast : UInt8 := 0xc0
def instanceof : UInt8 := 0xc1
def wide : UInt8 := 0xc4
def multianewarray : UInt8 := 0xc5
def ifnull : UInt8 := 0xc6
def ifnonnull : UInt8 := 0xc7
def gotoW : UInt8 := 0xc8
def jsrW : UInt8 := 0xc9

end Untangle.Opcode
