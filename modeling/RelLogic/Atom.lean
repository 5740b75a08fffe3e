/-!
# Atoms

An atom is a constant: a truth value, an integer of one of twelve machine types, a character or a text. The
kind of an atom belongs to its value, so atoms of two kinds are never equal, however alike they are written:
the signed 32-bit `1` is not the unsigned 8-bit `1`, and the character `a` is not the text `a`.
-/

namespace RelLogic

/-- The types of integer atoms, by sign and width; `usize` and `isize` are 64 bits wide. -/
inductive IntKind
  | u8
  | u16
  | u32
  | u64
  | u128
  | usize
  | i8
  | i16
  | i32
  | i64
  | i128
  | isize
  deriving DecidableEq

namespace IntKind

/-- Every integer type, the unsigned ones first. -/
def all : List IntKind :=
  [.u8, .u16, .u32, .u64, .u128, .usize, .i8, .i16, .i32, .i64, .i128, .isize]

/-- The name of an integer type: its sign, then its width or the word `size`. -/
def name : IntKind → String
  | .u8 => "u8"
  | .u16 => "u16"
  | .u32 => "u32"
  | .u64 => "u64"
  | .u128 => "u128"
  | .usize => "usize"
  | .i8 => "i8"
  | .i16 => "i16"
  | .i32 => "i32"
  | .i64 => "i64"
  | .i128 => "i128"
  | .isize => "isize"

/-- The type that a name stands for. -/
def ofName? (s : String) : Option IntKind :=
  all.find? fun k => k.name == s

/-- Whether the type has negative numbers. -/
def signed : IntKind → Bool
  | .i8 | .i16 | .i32 | .i64 | .i128 | .isize => true
  | _ => false

/-- The width of the type in bits. -/
def bits : IntKind → Nat
  | .u8 | .i8 => 8
  | .u16 | .i16 => 16
  | .u32 | .i32 => 32
  | .u64 | .i64 | .usize | .isize => 64
  | .u128 | .i128 => 128

/-- Whether a number is a value of the type. -/
def holds (k : IntKind) (n : Int) : Bool :=
  if k.signed then decide (-Int.pow 2 (k.bits - 1) ≤ n ∧ n < Int.pow 2 (k.bits - 1))
  else decide (0 ≤ n ∧ n < Int.pow 2 k.bits)

theorem mem_all (k : IntKind) : k ∈ all := by
  cases k <;> decide

theorem ofName?_name (k : IntKind) : ofName? k.name = some k := by
  cases k <;> decide

end IntKind

/-- The value of an atom, tagged with its kind. -/
inductive Atom
  | bool (b : Bool)
  | int (kind : IntKind) (n : Int)
  | char (c : Char)
  | text (s : String)
  deriving DecidableEq

namespace Atom

/-- The integer atom of a kind, if the number is a value of that kind. -/
def int? (kind : IntKind) (n : Int) : Option Atom :=
  if kind.holds n then some (.int kind n) else none

/-- The word that tells the kinds of atoms apart when they are hashed. -/
def kindName : Atom → String
  | .bool _ => "bool"
  | .int kind _ => kind.name
  | .char _ => "char"
  | .text _ => "text"

/-- The value of an atom written without regard to its kind. -/
def plain : Atom → String
  | .bool b => if b then "true" else "false"
  | .int _ n => toString n
  | .char c => String.singleton c
  | .text s => s

/-- The hash of an atom mixes its kind with its value, so equal atoms have equal hashes. -/
instance : Hashable Atom where
  hash a := mixHash (hash a.kindName) (hash a.plain)

end Atom

end RelLogic
