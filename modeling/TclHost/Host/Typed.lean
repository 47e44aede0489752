import TclHost.Host.Engine
import TclHost.Host.Error
/-! # Typed results

The text of a result is read as one of five kinds of value.  A host type belongs to one kind;
integers that do not fit into it wrap around, and doubles are rounded to it.
-/
namespace TclHost.Host

inductive Kind where
  | int
  | uint
  | str
  | float
  | bool
  deriving DecidableEq, Repr

inductive Typed where
  | int (n : Int64)
  | uint (n : UInt64)
  | str (s : String)
  | float (x : Float)
  | bool (b : Bool)

/-- The types in which the host takes a result. -/
inductive HostType where
  | i8 | i16 | i32 | i64 | isize
  | u8 | u16 | u32 | u64 | usize
  | f32 | f64
  | bool
  | string
  deriving DecidableEq, Repr

inductive HostValue where
  | integer (n : Int)
  | single (x : Float32)
  | double (x : Float)
  | bool (b : Bool)
  | string (s : String)

def HostType.name : HostType → String
  | .i8 => "i8"
  | .i16 => "i16"
  | .i32 => "i32"
  | .i64 => "i64"
  | .isize => "isize"
  | .u8 => "u8"
  | .u16 => "u16"
  | .u32 => "u32"
  | .u64 => "u64"
  | .usize => "usize"
  | .f32 => "f32"
  | .f64 => "f64"
  | .bool => "bool"
  | .string => "String"

def HostType.kind : HostType → Kind
  | .i8 | .i16 | .i32 | .i64 | .isize => .int
  | .u8 | .u16 | .u32 | .u64 | .usize => .uint
  | .f32 | .f64 => .float
  | .bool => .bool
  | .string => .str

def HostType.bits : HostType → Nat
  | .i8 | .u8 => 8
  | .i16 | .u16 => 16
  | .i32 | .u32 => 32
  | _ => 64

def HostType.ofTyped (t : HostType) (v : Typed) : Except Error HostValue :=
  match t.kind, v with
  | .int, .int n => .ok (.integer (n.toInt.bmod (2 ^ t.bits)))
  | .uint, .uint n => .ok (.integer (n.toNat % 2 ^ t.bits))
  | .float, .float x => .ok (if t = .f32 then .single x.toFloat32 else .double x)
  | .bool, .bool b => .ok (.bool b)
  | .str, .str s => .ok (.string s)
  | _, _ => .error (.cannotConvert t.name)

/-- Read a text as a kind of value.  An unsigned integer is the 64-bit pattern of a signed
one. -/
def Engine.coerce (e : Engine) (text : String) (kind : Kind) : Except Error Typed × Engine :=
  let read {α : Type} (make : α → Typed) (r : Except Number.Error α) :
      Except Error Typed × Engine :=
    match e.reading r with
    | (.ok a, e) => (.ok (make a), e)
    | (.error message, e) => (.error (.coerce message), e)
  match kind with
  | .int => read .int (Number.parseInt text)
  | .uint => read (fun n => .uint n.toUInt64) (Number.parseInt text)
  | .str => (.ok (.str text), e)
  | .float => read .float (Number.parseDouble text)
  | .bool => read .bool (Number.parseBool text)

def Engine.extract (e : Engine) (text : String) (t : HostType) :
    Except Error HostValue × Engine :=
  match e.coerce text t.kind with
  | (.ok v, e) => (t.ofTyped v, e)
  | (.error error, e) => (.error error, e)

end TclHost.Host
