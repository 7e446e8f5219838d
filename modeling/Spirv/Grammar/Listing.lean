/-
A grammar as it is listed: kinds of operand by name, instructions and enumerants in any order, and the same value under
several names. `Grammar.ofListing` checks a listing and builds the tables.
-/
import Spirv.Word

namespace Spirv

inductive Quantifier where
  | optional | repeated
deriving DecidableEq, Repr

structure OperandListing where
  kind : String
  quantifier : Option Quantifier
deriving DecidableEq, Repr

structure InstructionListing where
  name : String
  opcode : UInt16
  operands : List OperandListing
deriving DecidableEq, Repr

/-- a value of an enumeration, or a bit of a mask -/
structure EnumerantListing where
  name : String
  value : Word
  params : List OperandListing
deriving DecidableEq, Repr

inductive Category where
  | bitEnum | valueEnum | id | literal | composite
deriving DecidableEq, Repr

structure KindListing where
  category : Category
  kind : String
  enumerants : Option (List EnumerantListing)
  /-- the kinds that a composite is made of -/
  bases : Option (List String)
deriving DecidableEq, Repr

structure Listing where
  magic : Word
  major : UInt8
  minor : UInt8
  revision : UInt8
  instructions : List InstructionListing
  kinds : List KindListing
deriving DecidableEq, Repr

end Spirv
