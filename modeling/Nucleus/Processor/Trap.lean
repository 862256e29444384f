import Nucleus.Processor.State

/-!
# Exception codes and their routes

The code in a saved Cause register says why the processor stopped. Code 0 is an interrupt and
code 8 a service request; everything else is passed up to the support level, in one of two classes.
-/
namespace Nucleus

/-- The exceptions the processor can raise, in the order of their codes. -/
inductive Trap
  | interrupt | modified | loadMiss | storeMiss | loadAddress | storeAddress | fetchBus | dataBus
  | request | breakpoint | reservedInstruction | coprocessor | overflow
deriving DecidableEq, Repr

namespace Trap

/-- The code that stands for an exception in Cause. -/
def code : Trap → Word
  | interrupt => 0
  | modified => 1
  | loadMiss => 2
  | storeMiss => 3
  | loadAddress => 4
  | storeAddress => 5
  | fetchBus => 6
  | dataBus => 7
  | request => 8
  | breakpoint => 9
  | reservedInstruction => 10
  | coprocessor => 11
  | overflow => 12

def all : List Trap :=
  [interrupt, modified, loadMiss, storeMiss, loadAddress, storeAddress, fetchBus, dataBus,
    request, breakpoint, reservedInstruction, coprocessor, overflow]

/-- The exception a code stands for, if any. -/
def ofCode? (c : Word) : Option Trap := all.find? (·.code == c)

theorem ofCode?_code (t : Trap) : ofCode? t.code = some t := by cases t <;> rfl

def name : Trap → String
  | interrupt => "Int"
  | modified => "Mod"
  | loadMiss => "TLBL"
  | storeMiss => "TLBS"
  | loadAddress => "AdEL"
  | storeAddress => "AdES"
  | fetchBus => "IBE"
  | dataBus => "DBE"
  | request => "Sys"
  | breakpoint => "Bp"
  | reservedInstruction => "RI"
  | coprocessor => "CpU"
  | overflow => "Ov"

end Trap

/-- The two kinds of exceptions a support level handles, each with a state slot and a context. -/
inductive ExceptionClass
  | pageFault
  | general
deriving DecidableEq, Repr

namespace ExceptionClass

/-- Position of the class in a support area. -/
def index : ExceptionClass → Word
  | pageFault => 0
  | general => 1

def name : ExceptionClass → String
  | pageFault => "PageFault"
  | general => "General"

end ExceptionClass

/-- Which part of the nucleus answers an exception. -/
inductive Route
  | interrupt
  | request
  | passUp (c : ExceptionClass)
deriving DecidableEq, Repr

/-- Route of an exception code; a code that stands for no exception is a general trap. -/
def Route.ofCode (c : Word) : Route :=
  match Trap.ofCode? c with
  | some .interrupt => .interrupt
  | some .request => .request
  | some .modified | some .loadMiss | some .storeMiss => .passUp .pageFault
  | _ => .passUp .general

end Nucleus
