import WebcomSdk.Cache.Treenode

/-!
JSON documents as json-c hands them over: an integer is a 64-bit one, a double
its bits, a string the C string of `json_object_get_string`, and an object holds
each key once.
-/

namespace WebcomSdk.Cache

open WebcomSdk.Datasync

/-- A `json_object`. -/
inductive Json where
  | null
  | boolean (b : Bool)
  | double (d : DoubleBits)
  | int (i : Int64)
  | string (s : Bytes)
  | array (elements : List Json)
  | object (members : List (Key × Json))

mutual

/-- No object of the document holds a key twice. -/
def Json.WellFormed : Json → Prop
  | .array elements => elementsWellFormed elements
  | .object members => (members.map Prod.fst).Nodup ∧ membersWellFormed members
  | _ => True

def elementsWellFormed : List Json → Prop
  | [] => True
  | x :: elements => x.WellFormed ∧ elementsWellFormed elements

def membersWellFormed : List (Key × Json) → Prop
  | [] => True
  | (_, x) :: members => x.WellFormed ∧ membersWellFormed members

end

/-! ### Numbers -/

/-- The bits of a positive integer below `2 ^ 64` rounded to a double, to
nearest and ties to even. The sum lets a carry out of the mantissa reach the
exponent. -/
def natToDouble (m : ℕ) : ℕ :=
  let e := Nat.log2 m
  let mantissa :=
    if e ≤ 52 then m * 2 ^ (52 - e)
    else
      let unit := 2 ^ (e - 52)
      let q := m / unit
      let rest := 2 * (m % unit)
      if rest > unit ∨ (rest = unit ∧ q % 2 = 1) then q + 1 else q
  (e + 1022) * 2 ^ 52 + mantissa

/-- `(double)i`. -/
def intToDouble (i : ℤ) : DoubleBits :=
  if i = 0 then 0
  else if i < 0 then UInt64.ofNat (2 ^ 63 + natToDouble i.natAbs)
  else UInt64.ofNat (natToDouble i.natAbs)

/-- `json_object_get_int` on an integer: clamped to 32 bits. -/
def jsonObjectGetInt (i : Int64) : ℤ := max (-2 ^ 31) (min (2 ^ 31 - 1) i.toInt)

/-- `"%d"` of an array index. -/
def sidx (i : ℕ) : Key :=
  if i = 0 then [48] else (Nat.digits 10 i).reverse.map fun d => (48 + d).toUInt8

end WebcomSdk.Cache
