import IdBasedEncryption.Request

namespace IdBasedEncryption.Config

open ByteStrings Stdio Request

def maxParam : Nat := 500

def maxNamlen : Nat := 20

def maxline : Nat := 2048

structure Assoc where
  type : CString
  value : CString
  path : Option CString

/-- The first `NumParam` entries of the array, whose end is not part of the model. -/
structure ConfCtx where
  configParam : List Assoc

def ConfCtx.numParam (ctx : ConfCtx) : Nat := ctx.configParam.length

section Names

/-- A digit of `%X`. -/
def hexDigit (d : Nat) : UInt8 := (bytes "0123456789ABCDEF").getD d 48

def hexadecimal (n : Nat) : ByteString := (Nat.digits 16 n).reverse.map hexDigit

theorem hexDigit_ne_zero (d : Nat) : hexDigit d ≠ 0 := by
  by_cases hd : d < 16
  · exact (by decide : ∀ d < 16, hexDigit d ≠ 0) d hd
  · have hlen : (bytes "0123456789ABCDEF").length = 16 := by decide
    rw [hexDigit, List.getD_eq_default _ _ (by omega)]
    decide

theorem zero_notMem_hexadecimal (n : Nat) : 0 ∉ hexadecimal n := by
  intro h
  obtain ⟨d, -, hd⟩ := List.mem_map.1 h
  exact hexDigit_ne_zero d hd

theorem zero_notMem_indexed (name : CString) (n : Nat) :
    0 ∉ name.val ++ (bytes "#" ++ hexadecimal n) := by
  simp only [List.mem_append, not_or]
  exact ⟨name.property, by decide, zero_notMem_hexadecimal n⟩

/-- The full name has an index unless this is one of the two ends of the range. -/
def getFullName (name : CString) (index : Int) : CString :=
  if 0 < index ∧ index < 0xFFFF then ⟨_, zero_notMem_indexed name index.toNat⟩ else name

/-- The first entry whose name agrees in the first 20 characters. -/
def getIndex (ctx : ConfCtx) (name : CString) (index : Int) : Option Nat :=
  let look := getFullName name index
  ctx.configParam.findIdx? fun e => strncmp e.type.val look.val maxNamlen

end Names

section Params

def getStringParam (ctx : ConfCtx) (name : CString) (index : Int) (deflt : Option CString) :
    Option CString :=
  match getIndex ctx name index with
  | none => deflt
  | some i => ctx.configParam[i]?.map Assoc.value

/-- The return code and the context. The capacity of the array is not looked at. -/
def setStringParam (ctx : ConfCtx) (name : CString) (index : Int) (value : CString) :
    Int × ConfCtx :=
  if maxline < value.val.length ∨ maxNamlen < name.val.length ∨ index < 0 ∨ 0xFFFF < index then
    (1, ctx)
  else
    match getIndex ctx name index with
    | none => (0, ⟨ctx.configParam ++ [⟨getFullName name index, value, none⟩]⟩)
    | some pos => (0, ⟨ctx.configParam.modify pos fun e => ⟨e.type, value, none⟩⟩)

/-- What `%d` prints. -/
def printInt (n : Int) : ByteString :=
  if n < 0 then bytes "-" ++ decimal n.natAbs else decimal n.natAbs

def setIntParam (ctx : ConfCtx) (name : CString) (index value : Int) : Int × ConfCtx :=
  setStringParam ctx name index (charstarFromByteString (printInt value))

def setBoolParam (ctx : ConfCtx) (name : CString) (index value : Int) : Int × ConfCtx :=
  setStringParam ctx name index
    (charstarFromByteString (if value ≠ 0 then bytes "True" else bytes "False"))

end Params

section Lists

def isSeparator (c : UInt8) : Bool := c = 32 || c = 44 || c = 59

/-- The tokens that the calls of `strtok` find. -/
def strtok (s : ByteString) : List ByteString := (s.splitOnP isSeparator).filter (· ≠ [])

/-- The entries of the list in front of the terminating `NULL`. -/
def getListParam (ctx : ConfCtx) (name : CString) (index : Int)
    (deflt : Option (List ByteString)) : Option (List ByteString) :=
  match getStringParam ctx name index none with
  | none => deflt
  | some temp => some (strtok temp.val)

end Lists

section Numbers

def isspace (c : UInt8) : Bool := c = 32 || (9 ≤ c && c ≤ 13)

def isdigit (c : UInt8) : Bool := 48 ≤ c && c ≤ 57

def digitsValue (s : ByteString) : Int :=
  (s.takeWhile isdigit).foldl (fun n c => n * 10 + (c.toNat - 48)) 0

/-- `strtol` with its limits for a `long` of 64 bits, cast to `int`. -/
def atoi (s : ByteString) : Int :=
  let s := s.dropWhile isspace
  let n :=
    match s with
    | 45 :: s => -digitsValue s
    | 43 :: s => digitsValue s
    | s => digitsValue s
  (max (-2 ^ 63) (min (2 ^ 63 - 1) n)).bmod (2 ^ 32)

/-- Characters of which one is no digit, or more than eleven, are no number. -/
def getIntParam (ctx : ConfCtx) (name : CString) (index deflt : Int) : Int :=
  match getStringParam ctx name index none with
  | none => deflt
  | some temp =>
      if temp.val.all isdigit ∧ temp.val.length ≤ 11 then atoi temp.val else deflt

end Numbers

end IdBasedEncryption.Config
