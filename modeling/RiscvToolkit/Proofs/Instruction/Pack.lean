import RiscvToolkit.Proofs.Machine.Pair

/-! Packing both ways: the fields of packed words, integers that go into a field and come back, and words put
together again from what has been read from them. -/
namespace RiscvToolkit

/-! ### Integers in words -/

theorem toBitVec_ofInt (n : Int) : (UInt32.ofInt n).toBitVec = BitVec.ofInt 32 n := by
  apply BitVec.eq_of_toNat_eq
  rw [UInt32.toNat_toBitVec, UInt32.ofInt, UInt32.toNat_ofNat', BitVec.toNat_ofInt]
  omega

/-- The number that a word holds for an integer. -/
theorem emod_ofInt (n : Int) : ((UInt32.ofInt n).toNat : Int) = n % 2 ^ 32 := by
  unfold UInt32.ofInt
  rw [UInt32.toNat_ofNat']
  omega

@[simp] theorem ofInt_toInt (x : Int32) : UInt32.ofInt x.toInt = x.toUInt32 := by
  apply UInt32.toBitVec_inj.mp
  rw [toBitVec_ofInt]
  exact BitVec.ofInt_toInt

/-- An integer that fits is read back from the low bits of its word. -/
theorem toInt_signed_ofInt {n : Int} (h : -2048 ≤ n ∧ n ≤ 2047) :
    (signed (UInt32.ofInt n) 12).toInt = n := by
  rw [toInt_signed _ (by omega) (by omega), emod_ofInt, Int.bmod_def]
  omega

theorem ofInt_toInt_emod (x : Int32) : UInt32.ofInt (x.toInt % 32) = x.toUInt32 &&& 0x1f := by
  have hx : x.toInt = (x.toUInt32.toNat : Int).bmod (2 ^ 32) := toInt_toInt32 x.toUInt32
  have hn := emod_ofInt (x.toInt % 32)
  have hm : x.toUInt32.toNat &&& 31 = x.toUInt32.toNat % 32 :=
    Nat.and_two_pow_sub_one_eq_mod x.toUInt32.toNat 5
  apply UInt32.toNat_inj.mp
  rw [hx, Int.bmod_def] at hn
  rw [UInt32.toNat_and, hx, Int.bmod_def]
  change _ = x.toUInt32.toNat &&& 31
  omega

theorem shiftLeft_and_upper (x : UInt32) : (x <<< 12) &&& (0xfffff000 : UInt32) = x <<< 12 := by
  apply ext_bit
  intro i hi
  interval_cases i <;> simp

theorem emod_ofInt_shiftLeft (n : Int) :
    ((UInt32.ofInt n <<< 12).toNat : Int) = n * 4096 % 2 ^ 32 := by
  have hn := emod_ofInt n
  rw [UInt32.toNat_shiftLeft]
  change (((UInt32.ofInt n).toNat <<< 12 % 2 ^ 32 : Nat) : Int) = _
  rw [Nat.shiftLeft_eq]
  omega

/-- An upper immediate is read back in place. -/
theorem toInt_upper_ofInt {n : Int} (h : -524288 ≤ n ∧ n ≤ 524287) :
    ((UInt32.ofInt n <<< 12) &&& 0xfffff000).toInt32.toInt = n * 4096 := by
  rw [shiftLeft_and_upper, toInt_toInt32, emod_ofInt_shiftLeft, Int.bmod_def]
  omega

theorem toInt_upper (word : UInt32) :
    ((word &&& 0xfffff000).toInt32.toInt : Int) =
      ((word.toNat / 4096 * 4096 : Nat) : Int).bmod (2 ^ 32) := by
  rw [toInt_toInt32, toNat_and_upper]

theorem upper_ofInt_toInt (word : UInt32) :
    UInt32.ofInt ((word &&& 0xfffff000).toInt32.toInt / 4096) <<< 12 = word &&& 0xfffff000 := by
  have hw := word.toNat_lt
  have hn := emod_ofInt_shiftLeft ((word &&& 0xfffff000).toInt32.toInt / 4096)
  apply UInt32.toNat_inj.mp
  rw [toInt_upper, Int.bmod_def] at hn
  rw [toNat_and_upper]
  rw [toInt_upper, Int.bmod_def]
  omega

/-! ### Bits of fields -/

@[simp] theorem bit_mod_byte (x : UInt32) (i : Nat) :
    bit (x % 256) i = (bit x i && decide (i < 8)) := by
  rw [bit_eq_testBit, UInt32.toNat_mod]
  change (x.toNat % 2 ^ 8).testBit i = _
  rw [Nat.testBit_mod_two_pow, bit_eq_testBit, Bool.and_comm]

@[simp] theorem bit_bits_ofBits (x : UInt32) (i : Nat) :
    bit (Reg.ofBits x).bits i = (bit x i && decide (i < 5)) := by
  rw [bit_eq_testBit, toNat_bits]
  change (x.toNat % 2 ^ 5).testBit i = _
  rw [Nat.testBit_mod_two_pow, bit_eq_testBit, Bool.and_comm]

theorem funct7_eq {a : UInt32} {funct7 : UInt8} (hf : funct7 < 128)
    (h : ∀ i < 7, bit a (25 + i) = bit funct7.toUInt32 i) : (a >>> 25).toUInt8 = funct7 := by
  have hv : funct7.toUInt32.toNat < 2 ^ 7 := by
    rw [UInt8.toNat_toUInt32]
    exact UInt8.lt_iff_toNat_lt.mp hf
  have hm : (a >>> 25) &&& (0x7f : UInt32) = a >>> 25 := by
    apply ext_bit
    intro i hi
    interval_cases i <;> simp [bit_eq_testBit a, testBit_of_lt a.toNat_lt]
  rw [← hm, and_mask_eq 7 rfl hv fun i hi => ?_, UInt8.toUInt8_toUInt32]
  simpa using h i hi

/-- What a word with three registers is read back as. -/
theorem Fields.ofWord_register {o : Opcode} {funct3 funct7 : UInt8} (h3 : funct3 < 8)
    (h7 : funct7 < 128) (rd rs1 rs2 : Reg) :
    ∃ f, Fields.ofWord (Pack.register o.code funct3 funct7 rd rs1 rs2) = .ok f ∧ f.opcode = o ∧
      f.funct3 = funct3 ∧ f.funct7 = funct7 ∧ f.rd = rd ∧ f.rs1 = rs1 ∧ f.rs2 = rs2 := by
  refine ⟨_, Fields.ofWord_of_code (o := o) ?_, rfl, funct3_eq h3 ?_, funct7_eq h7 ?_,
    Reg.ofBits_eq ?_, Reg.ofBits_eq ?_, Reg.ofBits_eq ?_⟩
  · intro i hi
    unfold Pack.register
    interval_cases i <;> simp
  · intro i hi
    unfold Pack.register
    interval_cases i <;> simp [bit_reg, bit_code]
  · intro i hi
    unfold Pack.register
    interval_cases i <;> simp [bit_reg, bit_code, bit_funct3 h3]
  · intro i hi
    unfold Pack.register
    interval_cases i <;> simp [bit_code]
  · intro i hi
    unfold Pack.register
    interval_cases i <;> simp [bit_reg, bit_code, bit_funct3 h3]
  · intro i hi
    unfold Pack.register
    interval_cases i <;> simp [bit_reg, bit_code, bit_funct3 h3]

/-- The upper seven bits of an immediate are where other formats have `funct7`. -/
theorem funct7_immediate {o : Opcode} {funct3 funct7 : UInt8} (h3 : funct3 < 8)
    (h7 : funct7 < 128) (rd rs1 : Reg) {amount : UInt32} (ha : amount.toNat < 32) :
    (Pack.immediate o.code funct3 rd rs1 (amount ||| funct7.toUInt32 <<< 5) >>> 25).toUInt8 =
      funct7 := by
  have hz (i : Nat) (hi : 5 ≤ i) : bit amount i = false := testBit_of_lt (k := 5) ha hi
  refine funct7_eq h7 fun i hi => ?_
  unfold Pack.immediate
  interval_cases i <;> simp [bit_reg, bit_code, bit_funct3 h3, hz]

/-- The low five bits of an immediate are the amount of a shift. -/
theorem toInt_signed_amount {amount : UInt32} (ha : amount.toNat < 32) (funct7 : UInt8) :
    (signed (amount ||| funct7.toUInt32 <<< 5) 12).toInt % 32 = amount.toNat := by
  have h7 := funct7.toNat_lt
  have hs : (amount ||| funct7.toUInt32 <<< 5).toNat = 32 * funct7.toNat + amount.toNat := by
    have hm : funct7.toNat * 2 ^ 5 % 2 ^ 32 = 2 ^ 5 * funct7.toNat := by omega
    rw [UInt32.toNat_or, UInt32.toNat_shiftLeft, UInt8.toNat_toUInt32, Nat.or_comm]
    change funct7.toNat <<< 5 % 2 ^ 32 ||| amount.toNat = _
    rw [Nat.shiftLeft_eq, hm, ← Nat.two_pow_add_eq_or_of_lt ha]
  rw [toInt_signed _ (by omega) (by omega), hs, Int.bmod_def]
  omega

namespace Pack
variable (word : UInt32)

/-! ### Words put together again -/

theorem register_fields :
    register (opcodeBits word) ((word >>> 12) &&& 7).toUInt8 (word >>> 25).toUInt8
      (Reg.ofBits (word >>> 7)) (Reg.ofBits (word >>> 15)) (Reg.ofBits (word >>> 20)) = word := by
  apply ext_bit
  intro i hi
  unfold register opcodeBits
  interval_cases i <;> simp [-bit_toUInt32]

variable {word} {imm : UInt32}

theorem immediate_fields (h : ∀ i < 12, bit imm i = bit word (20 + i)) :
    immediate (opcodeBits word) ((word >>> 12) &&& 7).toUInt8 (Reg.ofBits (word >>> 7))
      (Reg.ofBits (word >>> 15)) imm = word := by
  apply ext_bit
  intro i hi
  unfold immediate opcodeBits
  interval_cases i <;> simp [-bit_toUInt32, h]

theorem store_fields (h : ∀ i < 12, bit imm i = bit word (if i < 5 then 7 + i else 20 + i)) :
    store (opcodeBits word) ((word >>> 12) &&& 7).toUInt8 (Reg.ofBits (word >>> 15))
      (Reg.ofBits (word >>> 20)) imm = word := by
  apply ext_bit
  intro i hi
  unfold store opcodeBits
  interval_cases i <;> simp [-bit_toUInt32, h]

theorem upper_fields (h : imm &&& 0xfffff000 = word &&& 0xfffff000) :
    upper (opcodeBits word) (Reg.ofBits (word >>> 7)) imm = word := by
  apply ext_bit
  intro i hi
  unfold upper opcodeBits
  rw [h]
  interval_cases i <;> simp [-bit_toUInt32]

end Pack

end RiscvToolkit
