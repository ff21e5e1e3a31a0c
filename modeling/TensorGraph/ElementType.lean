import TensorGraph.Scalar

/-!
Element types of tensors: their names and sizes, the range of their values, and the conversion of a
double into that range.
-/
namespace TensorGraph

inductive ElementType where
  | bool
  | half
  | bf16
  | float
  | double
  | int8
  | uint8
  | int16
  | uint16
  | int32
  | uint32
  | int64
  | uint64
  | fp8e4m3fnuz
  | fp8e4m3fn
  | fp8e5m2
  | tuple
deriving DecidableEq, Repr

namespace ElementType

def all : List ElementType :=
  [bool, half, bf16, float, double, int8, uint8, int16, uint16, int32, uint32, int64, uint64,
    fp8e4m3fnuz, fp8e4m3fn, fp8e5m2, tuple]

/-- The name used in records. -/
def tag : ElementType → String
  | bool => "bool"
  | half => "half"
  | bf16 => "bf16"
  | float => "float"
  | double => "double"
  | int8 => "int8"
  | uint8 => "uint8"
  | int16 => "int16"
  | uint16 => "uint16"
  | int32 => "int32"
  | uint32 => "uint32"
  | int64 => "int64"
  | uint64 => "uint64"
  | fp8e4m3fnuz => "fp8e4m3fnuz"
  | fp8e4m3fn => "fp8e4m3fn"
  | fp8e5m2 => "fp8e5m2"
  | tuple => "tuple"

def ofTag? (s : String) : Option ElementType :=
  all.find? fun t => t.tag == s

/-- The name used in listings. -/
def name (t : ElementType) : String :=
  t.tag ++ "_type"

def number (t : ElementType) : Nat :=
  t.ctorIdx

def size : ElementType → Nat
  | bool | int8 | uint8 | fp8e4m3fnuz | fp8e4m3fn | fp8e5m2 => 1
  | half | bf16 | int16 | uint16 => 2
  | float | int32 | uint32 => 4
  | double | int64 | uint64 => 8
  | tuple => 0

def isIntegral : ElementType → Bool
  | bool | int8 | uint8 | int16 | uint16 | int32 | uint32 | int64 | uint64 => true
  | _ => false

def isSigned : ElementType → Bool
  | bool | uint8 | uint16 | uint32 | uint64 | tuple => false
  | _ => true

def isFloating (t : ElementType) : Bool :=
  !t.isIntegral && t != tuple

/-- The largest finite value, rounded to a double. -/
def maxValue : ElementType → Float
  | bool => 1
  | int8 => 127
  | uint8 => 255
  | int16 => 32767
  | uint16 => 65535
  | int32 => 2147483647
  | uint32 => 4294967295
  | int64 => 9223372036854775807
  | uint64 => 18446744073709551615
  | half => 65504
  | bf16 => 3.3895313892515355e38
  | float => 3.4028234663852886e38
  | double => 1.7976931348623157e308
  | fp8e4m3fnuz => 240
  | fp8e4m3fn => 448
  | fp8e5m2 => 57344
  | tuple => 0

def minValue (t : ElementType) : Float :=
  match t with
  | bool | uint8 | uint16 | uint32 | uint64 => 0
  | int8 => -128
  | int16 => -32768
  | int32 => -2147483648
  | int64 => -9223372036854775808
  | t => -t.maxValue

/-- A value converted into the type. Integers drop the fraction and stay within their range, `bool`
tells zero from the rest, and the floating types other than `double` hold single-precision
values. -/
def cast (t : ElementType) (x : Float) : Float :=
  match t with
  | bool => if x == 0 then 0 else 1
  | double | tuple => x
  | int8 | uint8 | int16 | uint16 | int32 | uint32 | int64 | uint64 =>
    if x.isNaN then 0 else Scalar.clamp t.minValue t.maxValue (Scalar.truncate x)
  | half | bf16 | float | fp8e4m3fnuz | fp8e4m3fn | fp8e5m2 => Scalar.toSingle x

end ElementType
end TensorGraph
