import TurboJS.Bytecode.Instruction
import TurboJS.IR.Function

namespace TurboJS.Frontend

open Bytecode

/-- The operand formats of `bytecode_opcodes.h`. -/
inductive Format where
  | none | noneInt | noneLoc | noneArg | noneVarRef
  | u8 | i8 | loc8 | const8 | label8
  | u16 | i16 | label16 | npop | npopx | npopU16 | loc | arg | varRef
  | u32 | u32x2 | i32 | const | label
  | atom | atomU8 | atomU16 | atomLabelU8 | atomLabelU16 | labelU16
  deriving DecidableEq, Repr

structure OpcodeInfo where
  size : Nat
  pop : Nat
  push : Nat
  format : Format
  deriving DecidableEq, Repr

/-- The rows of `bytecode_opcodes.h` by opcode number. The temporary opcodes, which the
header declares with `def`, have no number of their own here. -/
def opcodeInfo : List OpcodeInfo :=
  [
   -- invalid, push_i32, push_const, fclosure, push_atom_value
   ⟨1, 0, 0, .none⟩, ⟨5, 0, 1, .i32⟩, ⟨5, 0, 1, .const⟩, ⟨5, 0, 1, .const⟩, ⟨5, 0, 1, .atom⟩,
   -- private_symbol, undefined, null, push_this, push_false
   ⟨5, 0, 1, .atom⟩, ⟨1, 0, 1, .none⟩, ⟨1, 0, 1, .none⟩, ⟨1, 0, 1, .none⟩, ⟨1, 0, 1, .none⟩,
   -- push_true, object, special_object, rest, drop
   ⟨1, 0, 1, .none⟩, ⟨1, 0, 1, .none⟩, ⟨2, 0, 1, .u8⟩, ⟨3, 0, 1, .u16⟩, ⟨1, 1, 0, .none⟩,
   -- nip, nip1, dup, dup1, dup2
   ⟨1, 2, 1, .none⟩, ⟨1, 3, 2, .none⟩, ⟨1, 1, 2, .none⟩, ⟨1, 2, 3, .none⟩, ⟨1, 2, 4, .none⟩,
   -- dup3, insert2, insert3, insert4, perm3
   ⟨1, 3, 6, .none⟩, ⟨1, 2, 3, .none⟩, ⟨1, 3, 4, .none⟩, ⟨1, 4, 5, .none⟩, ⟨1, 3, 3, .none⟩,
   -- perm4, perm5, swap, swap2, rot3l
   ⟨1, 4, 4, .none⟩, ⟨1, 5, 5, .none⟩, ⟨1, 2, 2, .none⟩, ⟨1, 4, 4, .none⟩, ⟨1, 3, 3, .none⟩,
   -- rot3r, rot4l, rot5l, call_constructor, call
   ⟨1, 3, 3, .none⟩, ⟨1, 4, 4, .none⟩, ⟨1, 5, 5, .none⟩, ⟨3, 2, 1, .npop⟩, ⟨3, 1, 1, .npop⟩,
   -- tail_call, call_method, tail_call_method, array_from, apply
   ⟨3, 1, 0, .npop⟩, ⟨3, 2, 1, .npop⟩, ⟨3, 2, 0, .npop⟩, ⟨3, 0, 1, .npop⟩, ⟨3, 3, 1, .u16⟩,
   -- return, return_undef, check_ctor_return, check_ctor, init_ctor
   ⟨1, 1, 0, .none⟩, ⟨1, 0, 0, .none⟩, ⟨1, 1, 2, .none⟩, ⟨1, 0, 0, .none⟩, ⟨1, 0, 1, .none⟩,
   -- check_brand, add_brand, return_async, throw, throw_error
   ⟨1, 2, 2, .none⟩, ⟨1, 2, 0, .none⟩, ⟨1, 1, 0, .none⟩, ⟨1, 1, 0, .none⟩, ⟨6, 0, 0, .atomU8⟩,
   -- eval, apply_eval, regexp, get_super, import
   ⟨5, 1, 1, .npopU16⟩, ⟨3, 2, 1, .u16⟩, ⟨1, 2, 1, .none⟩, ⟨1, 1, 1, .none⟩, ⟨1, 2, 1, .none⟩,
   -- get_var_undef, get_var, put_var, put_var_init, get_ref_value
   ⟨5, 0, 1, .atom⟩, ⟨5, 0, 1, .atom⟩, ⟨5, 1, 0, .atom⟩, ⟨5, 1, 0, .atom⟩, ⟨1, 2, 3, .none⟩,
   -- put_ref_value, define_var, check_define_var, define_func
   ⟨1, 3, 0, .none⟩, ⟨6, 0, 0, .atomU8⟩, ⟨6, 0, 0, .atomU8⟩, ⟨6, 1, 0, .atomU8⟩,
   -- get_field, get_field2, put_field, get_private_field, put_private_field
   ⟨5, 1, 1, .atom⟩, ⟨5, 1, 2, .atom⟩, ⟨5, 2, 0, .atom⟩, ⟨1, 2, 1, .none⟩, ⟨1, 3, 0, .none⟩,
   -- define_private_field, get_array_el, get_array_el2, put_array_el, get_super_value
   ⟨1, 3, 1, .none⟩, ⟨1, 2, 1, .none⟩, ⟨1, 2, 2, .none⟩, ⟨1, 3, 0, .none⟩, ⟨1, 3, 1, .none⟩,
   -- put_super_value, define_field, set_name, set_name_computed, set_proto
   ⟨1, 4, 0, .none⟩, ⟨5, 2, 1, .atom⟩, ⟨5, 1, 1, .atom⟩, ⟨1, 2, 2, .none⟩, ⟨1, 2, 1, .none⟩,
   -- set_home_object, define_array_el, append, copy_data_properties, define_method
   ⟨1, 2, 2, .none⟩, ⟨1, 3, 2, .none⟩, ⟨1, 3, 2, .none⟩, ⟨2, 3, 3, .u8⟩, ⟨6, 2, 1, .atomU8⟩,
   -- define_method_computed, define_class, define_class_computed, get_loc, put_loc
   ⟨2, 3, 1, .u8⟩, ⟨6, 2, 2, .atomU8⟩, ⟨6, 3, 3, .atomU8⟩, ⟨3, 0, 1, .loc⟩, ⟨3, 1, 0, .loc⟩,
   -- set_loc, get_arg, put_arg, set_arg, get_var_ref
   ⟨3, 1, 1, .loc⟩, ⟨3, 0, 1, .arg⟩, ⟨3, 1, 0, .arg⟩, ⟨3, 1, 1, .arg⟩, ⟨3, 0, 1, .varRef⟩,
   -- put_var_ref, set_var_ref, set_loc_uninitialized, get_loc_check, put_loc_check
   ⟨3, 1, 0, .varRef⟩, ⟨3, 1, 1, .varRef⟩, ⟨3, 0, 0, .loc⟩, ⟨3, 0, 1, .loc⟩, ⟨3, 1, 0, .loc⟩,
   -- put_loc_check_init, get_var_ref_check, put_var_ref_check, put_var_ref_check_init, close_loc
   ⟨3, 1, 0, .loc⟩, ⟨3, 0, 1, .varRef⟩, ⟨3, 1, 0, .varRef⟩, ⟨3, 1, 0, .varRef⟩, ⟨3, 0, 0, .loc⟩,
   -- if_false, if_true, goto, catch
   ⟨5, 1, 0, .label⟩, ⟨5, 1, 0, .label⟩, ⟨5, 0, 0, .label⟩, ⟨5, 0, 1, .label⟩,
   -- gosub, ret, nip_catch, check_object, to_object
   ⟨5, 0, 0, .label⟩, ⟨1, 1, 0, .none⟩, ⟨1, 2, 1, .none⟩, ⟨1, 1, 1, .none⟩, ⟨1, 1, 1, .none⟩,
   -- to_propkey, to_propkey2, with_get_var, with_put_var
   ⟨1, 1, 1, .none⟩, ⟨1, 2, 2, .none⟩, ⟨10, 1, 0, .atomLabelU8⟩, ⟨10, 2, 1, .atomLabelU8⟩,
   -- with_delete_var, with_make_ref, with_get_ref
   ⟨10, 1, 0, .atomLabelU8⟩, ⟨10, 1, 0, .atomLabelU8⟩, ⟨10, 1, 0, .atomLabelU8⟩,
   -- with_get_ref_undef, make_loc_ref, make_arg_ref, make_var_ref_ref
   ⟨10, 1, 0, .atomLabelU8⟩, ⟨7, 0, 2, .atomU16⟩, ⟨7, 0, 2, .atomU16⟩, ⟨7, 0, 2, .atomU16⟩,
   -- make_var_ref, for_in_start, for_of_start, for_await_of_start, for_in_next
   ⟨5, 0, 2, .atom⟩, ⟨1, 1, 1, .none⟩, ⟨1, 1, 3, .none⟩, ⟨1, 1, 3, .none⟩, ⟨1, 1, 3, .none⟩,
   -- for_of_next, iterator_get_value_done, iterator_close, iterator_next, iterator_call
   ⟨2, 3, 5, .u8⟩, ⟨1, 1, 2, .none⟩, ⟨1, 3, 0, .none⟩, ⟨1, 4, 4, .none⟩, ⟨2, 4, 5, .u8⟩,
   -- initial_yield, yield, yield_star, async_yield_star, await
   ⟨1, 0, 0, .none⟩, ⟨1, 1, 2, .none⟩, ⟨1, 1, 2, .none⟩, ⟨1, 1, 2, .none⟩, ⟨1, 1, 1, .none⟩,
   -- neg, plus, dec, inc, post_dec
   ⟨1, 1, 1, .none⟩, ⟨1, 1, 1, .none⟩, ⟨1, 1, 1, .none⟩, ⟨1, 1, 1, .none⟩, ⟨1, 1, 2, .none⟩,
   -- post_inc, dec_loc, inc_loc, add_loc, add_loc_loc
   ⟨1, 1, 2, .none⟩, ⟨2, 0, 0, .loc8⟩, ⟨2, 0, 0, .loc8⟩, ⟨2, 1, 0, .loc8⟩, ⟨3, 0, 0, .u16⟩,
   -- not, lnot, typeof, delete, delete_var
   ⟨1, 1, 1, .none⟩, ⟨1, 1, 1, .none⟩, ⟨1, 1, 1, .none⟩, ⟨1, 2, 1, .none⟩, ⟨5, 0, 1, .atom⟩,
   -- mul, div, mod, add, sub
   ⟨1, 2, 1, .none⟩, ⟨1, 2, 1, .none⟩, ⟨1, 2, 1, .none⟩, ⟨1, 2, 1, .none⟩, ⟨1, 2, 1, .none⟩,
   -- shl, sar, shr, and, xor
   ⟨1, 2, 1, .none⟩, ⟨1, 2, 1, .none⟩, ⟨1, 2, 1, .none⟩, ⟨1, 2, 1, .none⟩, ⟨1, 2, 1, .none⟩,
   -- or, pow, lt, lte, gt
   ⟨1, 2, 1, .none⟩, ⟨1, 2, 1, .none⟩, ⟨1, 2, 1, .none⟩, ⟨1, 2, 1, .none⟩, ⟨1, 2, 1, .none⟩,
   -- gte, instanceof, in, eq, neq
   ⟨1, 2, 1, .none⟩, ⟨1, 2, 1, .none⟩, ⟨1, 2, 1, .none⟩, ⟨1, 2, 1, .none⟩, ⟨1, 2, 1, .none⟩,
   -- strict_eq, strict_neq, is_undefined_or_null, private_in, push_bigint_i32
   ⟨1, 2, 1, .none⟩, ⟨1, 2, 1, .none⟩, ⟨1, 1, 1, .none⟩, ⟨1, 2, 1, .none⟩, ⟨5, 0, 1, .i32⟩,
   -- using_dispose_init, using_dispose, using_dispose_async, using_dispose_merge
   ⟨1, 0, 1, .none⟩, ⟨3, 1, 1, .loc⟩, ⟨3, 0, 1, .loc⟩, ⟨1, 2, 1, .none⟩,
   -- using_dispose_end, using_check, nop, push_minus1, push_0
   ⟨1, 1, 0, .none⟩, ⟨2, 1, 2, .u8⟩, ⟨1, 0, 0, .none⟩, ⟨1, 0, 1, .noneInt⟩, ⟨1, 0, 1, .noneInt⟩,
   -- push_1, push_2, push_3, push_4
   ⟨1, 0, 1, .noneInt⟩, ⟨1, 0, 1, .noneInt⟩, ⟨1, 0, 1, .noneInt⟩, ⟨1, 0, 1, .noneInt⟩,
   -- push_5, push_6, push_7, push_i8
   ⟨1, 0, 1, .noneInt⟩, ⟨1, 0, 1, .noneInt⟩, ⟨1, 0, 1, .noneInt⟩, ⟨2, 0, 1, .i8⟩,
   -- push_i16, push_const8, fclosure8, push_empty_string, get_loc8
   ⟨3, 0, 1, .i16⟩, ⟨2, 0, 1, .const8⟩, ⟨2, 0, 1, .const8⟩, ⟨1, 0, 1, .none⟩, ⟨2, 0, 1, .loc8⟩,
   -- put_loc8, set_loc8, get_loc0_loc1, get_loc0
   ⟨2, 1, 0, .loc8⟩, ⟨2, 1, 1, .loc8⟩, ⟨1, 0, 2, .noneLoc⟩, ⟨1, 0, 1, .noneLoc⟩,
   -- get_loc1, get_loc2, get_loc3, put_loc0
   ⟨1, 0, 1, .noneLoc⟩, ⟨1, 0, 1, .noneLoc⟩, ⟨1, 0, 1, .noneLoc⟩, ⟨1, 1, 0, .noneLoc⟩,
   -- put_loc1, put_loc2, put_loc3, set_loc0
   ⟨1, 1, 0, .noneLoc⟩, ⟨1, 1, 0, .noneLoc⟩, ⟨1, 1, 0, .noneLoc⟩, ⟨1, 1, 1, .noneLoc⟩,
   -- set_loc1, set_loc2, set_loc3, get_arg0
   ⟨1, 1, 1, .noneLoc⟩, ⟨1, 1, 1, .noneLoc⟩, ⟨1, 1, 1, .noneLoc⟩, ⟨1, 0, 1, .noneArg⟩,
   -- get_arg1, get_arg2, get_arg3, put_arg0
   ⟨1, 0, 1, .noneArg⟩, ⟨1, 0, 1, .noneArg⟩, ⟨1, 0, 1, .noneArg⟩, ⟨1, 1, 0, .noneArg⟩,
   -- put_arg1, put_arg2, put_arg3, set_arg0
   ⟨1, 1, 0, .noneArg⟩, ⟨1, 1, 0, .noneArg⟩, ⟨1, 1, 0, .noneArg⟩, ⟨1, 1, 1, .noneArg⟩,
   -- set_arg1, set_arg2, set_arg3, get_var_ref0
   ⟨1, 1, 1, .noneArg⟩, ⟨1, 1, 1, .noneArg⟩, ⟨1, 1, 1, .noneArg⟩, ⟨1, 0, 1, .noneVarRef⟩,
   -- get_var_ref1, get_var_ref2, get_var_ref3
   ⟨1, 0, 1, .noneVarRef⟩, ⟨1, 0, 1, .noneVarRef⟩, ⟨1, 0, 1, .noneVarRef⟩,
   -- put_var_ref0, put_var_ref1, put_var_ref2
   ⟨1, 1, 0, .noneVarRef⟩, ⟨1, 1, 0, .noneVarRef⟩, ⟨1, 1, 0, .noneVarRef⟩,
   -- put_var_ref3, set_var_ref0, set_var_ref1
   ⟨1, 1, 0, .noneVarRef⟩, ⟨1, 1, 1, .noneVarRef⟩, ⟨1, 1, 1, .noneVarRef⟩,
   -- set_var_ref2, set_var_ref3, get_length, if_false8
   ⟨1, 1, 1, .noneVarRef⟩, ⟨1, 1, 1, .noneVarRef⟩, ⟨1, 1, 1, .none⟩, ⟨2, 1, 0, .label8⟩,
   -- if_true8, goto8, goto16, call0
   ⟨2, 1, 0, .label8⟩, ⟨2, 0, 0, .label8⟩, ⟨3, 0, 0, .label16⟩, ⟨1, 1, 1, .npopx⟩,
   -- call1, call2, call3, is_undefined, is_null
   ⟨1, 1, 1, .npopx⟩, ⟨1, 1, 1, .npopx⟩, ⟨1, 1, 1, .npopx⟩, ⟨1, 1, 1, .none⟩, ⟨1, 1, 1, .none⟩,
   -- typeof_is_undefined, typeof_is_function
   ⟨1, 1, 1, .none⟩, ⟨1, 1, 1, .none⟩]

def opCount : Nat := opcodeInfo.length

namespace Op

def invalid : Nat := 0
def call : Nat := 34
def tailCall : Nat := 35
def callMethod : Nat := 36
def tailCallMethod : Nat := 37
def arrayFrom : Nat := 38
def «return» : Nat := 40
def returnUndef : Nat := 41
def returnAsync : Nat := 47
def «throw» : Nat := 48
def «throwError» : Nat := 49
def ifFalse : Nat := 104
def ifTrue : Nat := 105
def goto : Nat := 106
def «catch» : Nat := 107
def gosub : Nat := 108
def ret : Nat := 109
def nipCatch : Nat := 110
def withGetVar : Nat := 115
def withPutVar : Nat := 116
def withDeleteVar : Nat := 117
def withMakeRef : Nat := 118
def withGetRef : Nat := 119
def withGetRefUndef : Nat := 120
def ifFalse8 : Nat := 241
def ifTrue8 : Nat := 242
def goto8 : Nat := 243
def goto16 : Nat := 244
def call0 : Nat := 245

end Op

/-- The fields of `TurboJSEngineBytecodeInfo` that the region frontend reads. -/
structure BytecodeInfo where
  bytecode : List UInt8
  localCount : Nat
  stackSize : Nat
  deriving DecidableEq, Repr

structure Instruction where
  offset : Nat
  opcode : Nat
  size : Nat
  deriving DecidableEq, Repr

def Instruction.next (i : Instruction) : Nat := i.offset + i.size

def Instruction.info (i : Instruction) : OpcodeInfo :=
  opcodeInfo.getD i.opcode ⟨0, 0, 0, .none⟩

/-- The instruction at `pc` with a valid opcode and all its bytes inside the code. -/
def decodeAt (code : List UInt8) (pc : Nat) : Option Instruction := do
  let op ← code[pc]?
  let info ← opcodeInfo[op.toNat]?
  if op.toNat = Op.invalid ∨ code.length < pc + info.size then none
  else some ⟨pc, op.toNat, info.size⟩

def signedAt (code : List UInt8) (p width : Nat) : Int := (readSigned code p width).getD 0

theorem signedAt_bounds (code : List UInt8) (p : Nat) :
    -2147483648 ≤ signedAt code p 4 ∧ signedAt code p 4 ≤ 2147483647 := by
  cases h : readBytes code p 4 with
  | none => simp [signedAt, readSigned, h]
  | some n =>
    have hn := readBytes_lt h
    have hvalue : readSigned code p 4 =
        some (if (n : Int) < 2 ^ (8 * 4 - 1) then (n : Int) else n - 2 ^ (8 * 4)) := by
      rw [readSigned, h]
      rfl
    rw [signedAt, hvalue, Option.getD_some]
    split <;> omega

def unsignedAt (code : List UInt8) (p width : Nat) : Nat := (readBytes code p width).getD 0

end TurboJS.Frontend
