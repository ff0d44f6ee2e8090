/-!
# Opcodes

The instruction set: plain opcodes from byte 0 on and, at the top of the byte range, the instrumented twins
of the opcodes that fire an event, followed by the two overlay markers.
-/

namespace MonitoredVm

/-- An opcode. `cache` marks an inline cache entry and is never executed. -/
inductive Opcode where
  | cache
  | nop
  | extendedArg
  | resume
  | returnValue
  | call
  | callKw
  | callFunctionEx
  | loadSuperAttr
  | yieldValue
  | jumpForward
  | jumpBackward
  | jumpBackwardNoInterrupt
  | popJumpIfFalse
  | popJumpIfTrue
  | popJumpIfNone
  | popJumpIfNotNone
  | forIter
  | send
  | popIter
  | endFor
  | endSend
  | notTaken
  | endAsyncFor
  | loadConst
  | loadSmallInt
  | loadFast
  | storeFast
  | loadGlobal
  | loadAttr
  | storeAttr
  | binaryOp
  | compareOp
  | toBool
  | popTop
  | pushNull
  | getIter
  | copy
  | swap
  | raiseVarargs
  | reraise
  | pushExcInfo
  | popExcept
  | checkExcMatch
  | instrumentedEndFor
  | instrumentedPopIter
  | instrumentedEndSend
  | instrumentedForIter
  | instrumentedNotTaken
  | instrumentedPopJumpIfFalse
  | instrumentedPopJumpIfTrue
  | instrumentedPopJumpIfNone
  | instrumentedPopJumpIfNotNone
  | instrumentedResume
  | instrumentedReturnValue
  | instrumentedYieldValue
  | instrumentedEndAsyncFor
  | instrumentedLoadSuperAttr
  | instrumentedCall
  | instrumentedCallKw
  | instrumentedCallFunctionEx
  | instrumentedJumpForward
  | instrumentedJumpBackward
  | instrumentedInstruction
  | instrumentedLine
  deriving DecidableEq, Repr, Inhabited

namespace Opcode

/-- The plain opcodes in byte order, from 0. -/
def plain : List Opcode := [
  .cache, .nop, .extendedArg, .resume, .returnValue, .call,
  .callKw, .callFunctionEx, .loadSuperAttr, .yieldValue, .jumpForward, .jumpBackward,
  .jumpBackwardNoInterrupt, .popJumpIfFalse, .popJumpIfTrue, .popJumpIfNone, .popJumpIfNotNone, .forIter,
  .send, .popIter, .endFor, .endSend, .notTaken, .endAsyncFor,
  .loadConst, .loadSmallInt, .loadFast, .storeFast, .loadGlobal, .loadAttr,
  .storeAttr, .binaryOp, .compareOp, .toBool, .popTop, .pushNull,
  .getIter, .copy, .swap, .raiseVarargs, .reraise, .pushExcInfo,
  .popExcept, .checkExcMatch]

/-- The instrumented opcodes in byte order, from `firstInstrumented`. -/
def special : List Opcode := [
  .instrumentedEndFor, .instrumentedPopIter, .instrumentedEndSend, .instrumentedForIter,
  .instrumentedNotTaken, .instrumentedPopJumpIfFalse, .instrumentedPopJumpIfTrue, .instrumentedPopJumpIfNone,
  .instrumentedPopJumpIfNotNone, .instrumentedResume, .instrumentedReturnValue, .instrumentedYieldValue,
  .instrumentedEndAsyncFor, .instrumentedLoadSuperAttr, .instrumentedCall, .instrumentedCallKw,
  .instrumentedCallFunctionEx, .instrumentedJumpForward, .instrumentedJumpBackward, .instrumentedInstruction,
  .instrumentedLine]

def firstInstrumented : Nat := 234

def byte : Opcode → UInt8
  | .cache => 0
  | .nop => 1
  | .extendedArg => 2
  | .resume => 3
  | .returnValue => 4
  | .call => 5
  | .callKw => 6
  | .callFunctionEx => 7
  | .loadSuperAttr => 8
  | .yieldValue => 9
  | .jumpForward => 10
  | .jumpBackward => 11
  | .jumpBackwardNoInterrupt => 12
  | .popJumpIfFalse => 13
  | .popJumpIfTrue => 14
  | .popJumpIfNone => 15
  | .popJumpIfNotNone => 16
  | .forIter => 17
  | .send => 18
  | .popIter => 19
  | .endFor => 20
  | .endSend => 21
  | .notTaken => 22
  | .endAsyncFor => 23
  | .loadConst => 24
  | .loadSmallInt => 25
  | .loadFast => 26
  | .storeFast => 27
  | .loadGlobal => 28
  | .loadAttr => 29
  | .storeAttr => 30
  | .binaryOp => 31
  | .compareOp => 32
  | .toBool => 33
  | .popTop => 34
  | .pushNull => 35
  | .getIter => 36
  | .copy => 37
  | .swap => 38
  | .raiseVarargs => 39
  | .reraise => 40
  | .pushExcInfo => 41
  | .popExcept => 42
  | .checkExcMatch => 43
  | .instrumentedEndFor => 234
  | .instrumentedPopIter => 235
  | .instrumentedEndSend => 236
  | .instrumentedForIter => 237
  | .instrumentedNotTaken => 238
  | .instrumentedPopJumpIfFalse => 239
  | .instrumentedPopJumpIfTrue => 240
  | .instrumentedPopJumpIfNone => 241
  | .instrumentedPopJumpIfNotNone => 242
  | .instrumentedResume => 243
  | .instrumentedReturnValue => 244
  | .instrumentedYieldValue => 245
  | .instrumentedEndAsyncFor => 246
  | .instrumentedLoadSuperAttr => 247
  | .instrumentedCall => 248
  | .instrumentedCallKw => 249
  | .instrumentedCallFunctionEx => 250
  | .instrumentedJumpForward => 251
  | .instrumentedJumpBackward => 252
  | .instrumentedInstruction => 253
  | .instrumentedLine => 254

def ofByte? (b : UInt8) : Option Opcode :=
  if b.toNat < firstInstrumented then plain[b.toNat]? else special[b.toNat - firstInstrumented]?

/-- The opcode with this byte, a cache entry if there is none. -/
def ofByte (b : UInt8) : Opcode := (ofByte? b).getD .cache

def name : Opcode → String
  | .cache => "CACHE"
  | .nop => "NOP"
  | .extendedArg => "EXTENDED_ARG"
  | .resume => "RESUME"
  | .returnValue => "RETURN_VALUE"
  | .call => "CALL"
  | .callKw => "CALL_KW"
  | .callFunctionEx => "CALL_FUNCTION_EX"
  | .loadSuperAttr => "LOAD_SUPER_ATTR"
  | .yieldValue => "YIELD_VALUE"
  | .jumpForward => "JUMP_FORWARD"
  | .jumpBackward => "JUMP_BACKWARD"
  | .jumpBackwardNoInterrupt => "JUMP_BACKWARD_NO_INTERRUPT"
  | .popJumpIfFalse => "POP_JUMP_IF_FALSE"
  | .popJumpIfTrue => "POP_JUMP_IF_TRUE"
  | .popJumpIfNone => "POP_JUMP_IF_NONE"
  | .popJumpIfNotNone => "POP_JUMP_IF_NOT_NONE"
  | .forIter => "FOR_ITER"
  | .send => "SEND"
  | .popIter => "POP_ITER"
  | .endFor => "END_FOR"
  | .endSend => "END_SEND"
  | .notTaken => "NOT_TAKEN"
  | .endAsyncFor => "END_ASYNC_FOR"
  | .loadConst => "LOAD_CONST"
  | .loadSmallInt => "LOAD_SMALL_INT"
  | .loadFast => "LOAD_FAST"
  | .storeFast => "STORE_FAST"
  | .loadGlobal => "LOAD_GLOBAL"
  | .loadAttr => "LOAD_ATTR"
  | .storeAttr => "STORE_ATTR"
  | .binaryOp => "BINARY_OP"
  | .compareOp => "COMPARE_OP"
  | .toBool => "TO_BOOL"
  | .popTop => "POP_TOP"
  | .pushNull => "PUSH_NULL"
  | .getIter => "GET_ITER"
  | .copy => "COPY"
  | .swap => "SWAP"
  | .raiseVarargs => "RAISE_VARARGS"
  | .reraise => "RERAISE"
  | .pushExcInfo => "PUSH_EXC_INFO"
  | .popExcept => "POP_EXCEPT"
  | .checkExcMatch => "CHECK_EXC_MATCH"
  | .instrumentedEndFor => "INSTRUMENTED_END_FOR"
  | .instrumentedPopIter => "INSTRUMENTED_POP_ITER"
  | .instrumentedEndSend => "INSTRUMENTED_END_SEND"
  | .instrumentedForIter => "INSTRUMENTED_FOR_ITER"
  | .instrumentedNotTaken => "INSTRUMENTED_NOT_TAKEN"
  | .instrumentedPopJumpIfFalse => "INSTRUMENTED_POP_JUMP_IF_FALSE"
  | .instrumentedPopJumpIfTrue => "INSTRUMENTED_POP_JUMP_IF_TRUE"
  | .instrumentedPopJumpIfNone => "INSTRUMENTED_POP_JUMP_IF_NONE"
  | .instrumentedPopJumpIfNotNone => "INSTRUMENTED_POP_JUMP_IF_NOT_NONE"
  | .instrumentedResume => "INSTRUMENTED_RESUME"
  | .instrumentedReturnValue => "INSTRUMENTED_RETURN_VALUE"
  | .instrumentedYieldValue => "INSTRUMENTED_YIELD_VALUE"
  | .instrumentedEndAsyncFor => "INSTRUMENTED_END_ASYNC_FOR"
  | .instrumentedLoadSuperAttr => "INSTRUMENTED_LOAD_SUPER_ATTR"
  | .instrumentedCall => "INSTRUMENTED_CALL"
  | .instrumentedCallKw => "INSTRUMENTED_CALL_KW"
  | .instrumentedCallFunctionEx => "INSTRUMENTED_CALL_FUNCTION_EX"
  | .instrumentedJumpForward => "INSTRUMENTED_JUMP_FORWARD"
  | .instrumentedJumpBackward => "INSTRUMENTED_JUMP_BACKWARD"
  | .instrumentedInstruction => "INSTRUMENTED_INSTRUCTION"
  | .instrumentedLine => "INSTRUMENTED_LINE"

def ofName? (s : String) : Option Opcode := (plain ++ special).find? fun op => op.name == s

/-- The instrumented twin of an opcode that fires an event. -/
def twin? : Opcode → Option Opcode
  | .endFor => some .instrumentedEndFor
  | .popIter => some .instrumentedPopIter
  | .endSend => some .instrumentedEndSend
  | .forIter => some .instrumentedForIter
  | .notTaken => some .instrumentedNotTaken
  | .popJumpIfFalse => some .instrumentedPopJumpIfFalse
  | .popJumpIfTrue => some .instrumentedPopJumpIfTrue
  | .popJumpIfNone => some .instrumentedPopJumpIfNone
  | .popJumpIfNotNone => some .instrumentedPopJumpIfNotNone
  | .resume => some .instrumentedResume
  | .returnValue => some .instrumentedReturnValue
  | .yieldValue => some .instrumentedYieldValue
  | .endAsyncFor => some .instrumentedEndAsyncFor
  | .loadSuperAttr => some .instrumentedLoadSuperAttr
  | .call => some .instrumentedCall
  | .callKw => some .instrumentedCallKw
  | .callFunctionEx => some .instrumentedCallFunctionEx
  | .jumpForward => some .instrumentedJumpForward
  | .jumpBackward => some .instrumentedJumpBackward
  | _ => none

/-- The plain opcode an instrumented opcode stands in for. -/
def untwin? : Opcode → Option Opcode
  | .instrumentedEndFor => some .endFor
  | .instrumentedPopIter => some .popIter
  | .instrumentedEndSend => some .endSend
  | .instrumentedForIter => some .forIter
  | .instrumentedNotTaken => some .notTaken
  | .instrumentedPopJumpIfFalse => some .popJumpIfFalse
  | .instrumentedPopJumpIfTrue => some .popJumpIfTrue
  | .instrumentedPopJumpIfNone => some .popJumpIfNone
  | .instrumentedPopJumpIfNotNone => some .popJumpIfNotNone
  | .instrumentedResume => some .resume
  | .instrumentedReturnValue => some .returnValue
  | .instrumentedYieldValue => some .yieldValue
  | .instrumentedEndAsyncFor => some .endAsyncFor
  | .instrumentedLoadSuperAttr => some .loadSuperAttr
  | .instrumentedCall => some .call
  | .instrumentedCallKw => some .callKw
  | .instrumentedCallFunctionEx => some .callFunctionEx
  | .instrumentedJumpForward => some .jumpForward
  | .instrumentedJumpBackward => some .jumpBackward
  | _ => none

/-- One of the instrumented forms, overlay markers included. -/
def isInstrumented (op : Opcode) : Bool := decide (firstInstrumented ≤ op.byte.toNat)

/-- The plain form; plain opcodes and overlay markers stand for themselves. -/
def base (op : Opcode) : Opcode := op.untwin?.getD op

/-- Inline cache entries after a plain opcode. -/
def plainCaches : Opcode → Nat
  | .call | .callKw | .toBool => 3
  | .loadSuperAttr | .jumpBackward | .popJumpIfFalse | .popJumpIfTrue | .popJumpIfNone | .popJumpIfNotNone
  | .forIter | .send | .compareOp => 1
  | .loadGlobal | .storeAttr => 4
  | .binaryOp => 5
  | .loadAttr => 9
  | _ => 0

def caches (op : Opcode) : Nat := op.base.plainCaches

def isConditionalJump : Opcode → Bool
  | .popJumpIfFalse | .popJumpIfTrue | .popJumpIfNone | .popJumpIfNotNone => true
  | _ => false

/-- Executing the opcode can fire an event of its own. -/
def hasEvent (op : Opcode) : Bool := op.twin?.isSome

end Opcode
end MonitoredVm
