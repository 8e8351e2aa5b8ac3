import RiscvToolkit.Catalog.Basic

/-! The built-in catalog: the base integer instructions and their usual shorthands. -/
namespace RiscvToolkit.Catalog

/-- The names of the integer registers. -/
def intRows : List (List String) := [
  ["zero", "x0"], ["ra", "x1"], ["sp", "x2"], ["gp", "x3"], ["tp", "x4"], ["t0", "x5"],
  ["t1", "x6"], ["t2", "x7"], ["s0", "x8", "fp"], ["s1", "x9"], ["a0", "x10"], ["a1", "x11"],
  ["a2", "x12"], ["a3", "x13"], ["a4", "x14"], ["a5", "x15"], ["a6", "x16"], ["a7", "x17"],
  ["s2", "x18"], ["s3", "x19"], ["s4", "x20"], ["s5", "x21"], ["s6", "x22"], ["s7", "x23"],
  ["s8", "x24"], ["s9", "x25"], ["s10", "x26"], ["s11", "x27"], ["t3", "x28"], ["t4", "x29"],
  ["t5", "x30"], ["t6", "x31"]]

/-- The names of the floating-point registers. -/
def floatRows : List (List String) := [
  ["ft0", "f0"], ["ft1", "f1"], ["ft2", "f2"], ["ft3", "f3"], ["ft4", "f4"], ["ft5", "f5"],
  ["ft6", "f6"], ["ft7", "f7"], ["fs0", "f8"], ["fs1", "f9"], ["fa0", "f10"], ["fa1", "f11"],
  ["fa2", "f12"], ["fa3", "f13"], ["fa4", "f14"], ["fa5", "f15"], ["fa6", "f16"], ["fa7", "f17"],
  ["fs2", "f18"], ["fs3", "f19"], ["fs4", "f20"], ["fs5", "f21"], ["fs6", "f22"], ["fs7", "f23"],
  ["fs8", "f24"], ["fs9", "f25"], ["fs10", "f26"], ["fs11", "f27"], ["ft8", "f28"], ["ft9", "f29"],
  ["ft10", "f30"], ["ft11", "f31"]]

def builtinEntries : List Entry := [
  ⟨"add", .r 0x33 0 0x0 .int .int .int⟩,
  ⟨"sub", .r 0x33 0 0x20 .int .int .int⟩,
  ⟨"sll", .r 0x33 1 0x0 .int .int .int⟩,
  ⟨"slt", .r 0x33 2 0x0 .int .int .int⟩,
  ⟨"sltu", .r 0x33 3 0x0 .int .int .int⟩,
  ⟨"xor", .r 0x33 4 0x0 .int .int .int⟩,
  ⟨"srl", .r 0x33 5 0x0 .int .int .int⟩,
  ⟨"sra", .r 0x33 5 0x20 .int .int .int⟩,
  ⟨"or", .r 0x33 6 0x0 .int .int .int⟩,
  ⟨"and", .r 0x33 7 0x0 .int .int .int⟩,
  ⟨"addi", .i 0x13 0 (.immediate .int .int)⟩,
  ⟨"slti", .i 0x13 2 (.immediate .int .int)⟩,
  ⟨"sltiu", .i 0x13 3 (.immediate .int .int)⟩,
  ⟨"xori", .i 0x13 4 (.immediate .int .int)⟩,
  ⟨"ori", .i 0x13 6 (.immediate .int .int)⟩,
  ⟨"andi", .i 0x13 7 (.immediate .int .int)⟩,
  ⟨"slli", .i 0x13 1 (.shift .int .int 0x0)⟩,
  ⟨"srli", .i 0x13 5 (.shift .int .int 0x0)⟩,
  ⟨"srai", .i 0x13 5 (.shift .int .int 0x20)⟩,
  ⟨"addiw", .i 0x1b 0 (.immediate .int .int)⟩,
  ⟨"jalr", .i 0x67 0 (.immediate .int .int)⟩,
  ⟨"lb", .i 0x3 0 (.offset .int)⟩,
  ⟨"lh", .i 0x3 1 (.offset .int)⟩,
  ⟨"lw", .i 0x3 2 (.offset .int)⟩,
  ⟨"ld", .i 0x3 3 (.offset .int)⟩,
  ⟨"lbu", .i 0x3 4 (.offset .int)⟩,
  ⟨"lhu", .i 0x3 5 (.offset .int)⟩,
  ⟨"sb", .s 0x23 0 .int⟩,
  ⟨"sh", .s 0x23 1 .int⟩,
  ⟨"sw", .s 0x23 2 .int⟩,
  ⟨"sd", .s 0x23 3 .int⟩,
  ⟨"beq", .b 0x63 0 .int .int⟩,
  ⟨"bne", .b 0x63 1 .int .int⟩,
  ⟨"blt", .b 0x63 4 .int .int⟩,
  ⟨"bge", .b 0x63 5 .int .int⟩,
  ⟨"bltu", .b 0x63 6 .int .int⟩,
  ⟨"bgeu", .b 0x63 7 .int .int⟩,
  ⟨"jal", .j 0x6f⟩,
  ⟨"lui", .u 0x37⟩,
  ⟨"auipc", .u 0x17⟩,
  ⟨"ecall", .w 0x00000073⟩,
  ⟨"ebreak", .w 0x00100073⟩,
  ⟨"la", .la⟩,
  ⟨"li", .li⟩,
  ⟨"nop", .template 0 ["addi zero, zero, 0"]⟩,
  ⟨"mv", .template 2 ["addi %1, %2, 0"]⟩,
  ⟨"not", .template 2 ["xori %1, %2, -1"]⟩,
  ⟨"neg", .template 2 ["sub %1, zero, %2"]⟩,
  ⟨"seqz", .template 2 ["sltiu %1, %2, 1"]⟩,
  ⟨"snez", .template 2 ["sltu %1, zero, %2"]⟩,
  ⟨"sltz", .template 2 ["slt %1, %2, zero"]⟩,
  ⟨"sgtz", .template 2 ["slt %1, zero, %2"]⟩,
  ⟨"j", .template 1 ["jal zero, %1"]⟩,
  ⟨"jr", .template 1 ["jalr zero, %1, 0"]⟩,
  ⟨"ret", .template 0 ["jalr zero, ra, 0"]⟩,
  ⟨"call", .template 1 ["jal ra, %1"]⟩,
  ⟨"tail", .template 1 ["jal zero, %1"]⟩,
  ⟨"beqz", .template 2 ["beq %1, zero, %2"]⟩,
  ⟨"bnez", .template 2 ["bne %1, zero, %2"]⟩,
  ⟨"blez", .template 2 ["bge zero, %1, %2"]⟩,
  ⟨"bgez", .template 2 ["bge %1, zero, %2"]⟩,
  ⟨"bltz", .template 2 ["blt %1, zero, %2"]⟩,
  ⟨"bgtz", .template 2 ["blt zero, %1, %2"]⟩,
  ⟨"bgt", .template 3 ["blt %2, %1, %3"]⟩,
  ⟨"ble", .template 3 ["bge %2, %1, %3"]⟩,
  ⟨"bgtu", .template 3 ["bltu %2, %1, %3"]⟩,
  ⟨"bleu", .template 3 ["bgeu %2, %1, %3"]⟩]

/-- The catalog that is used unless another one is given. -/
def builtin : Catalog where
  entries := builtinEntries
  registers := namedRegisters .float floatRows ++ namedRegisters .int intRows
  intNames := intRows.map (·.headD "?")
  floatNames := floatRows.map (·.headD "?")

example : builtin.register? "fp" = some ⟨8, .int⟩ := by decide +kernel
example : (builtin.find? "ecall").map (·.encoding) = some (.w 0x73) := by decide +kernel

end RiscvToolkit.Catalog
