import Mathlib.Tactic

/-!
A reader of JSON texts, over bytes in UTF-8. A number is an opaque token: a run
of the characters that numbers are written with, and no literal name. Bytes from
128 on are taken as they are. The readers take a bound on the depth and the
length; a text is read with its own length.
-/

namespace WebcomSdk.Lib

/-! ### Values -/

/-- A JSON value, its numbers in `N`. -/
inductive JsonValue (N : Type*) where
  | null
  | bool (b : Bool)
  | number (n : N)
  | string (s : List UInt8)
  | array (elements : List (JsonValue N))
  | object (members : List (List UInt8 × JsonValue N))

/-! ### Strings -/

def hexDigit (c : UInt8) : Option ℕ :=
  if 48 ≤ c ∧ c ≤ 57 then some (c.toNat - 48)
  else if 97 ≤ c ∧ c ≤ 102 then some (c.toNat - 87)
  else if 65 ≤ c ∧ c ≤ 70 then some (c.toNat - 55)
  else none

def hexUnit (a b c d : UInt8) : Option ℕ := do
  let a ← hexDigit a
  let b ← hexDigit b
  let c ← hexDigit c
  let d ← hexDigit d
  some (((a * 16 + b) * 16 + c) * 16 + d)

def utf8 (n : ℕ) : List UInt8 :=
  if n < 0x80 then [UInt8.ofNat n]
  else if n < 0x800 then [UInt8.ofNat (0xc0 + n / 0x40), UInt8.ofNat (0x80 + n % 0x40)]
  else if n < 0x10000 then
    [UInt8.ofNat (0xe0 + n / 0x1000), UInt8.ofNat (0x80 + n / 0x40 % 0x40),
      UInt8.ofNat (0x80 + n % 0x40)]
  else
    [UInt8.ofNat (0xf0 + n / 0x40000), UInt8.ofNat (0x80 + n / 0x1000 % 0x40),
      UInt8.ofNat (0x80 + n / 0x40 % 0x40), UInt8.ofNat (0x80 + n % 0x40)]

/-- What follows `\u`; the two halves of a pair belong together. -/
def readUnicode : List UInt8 → Option (List UInt8 × List UInt8)
  | a :: b :: c :: d :: rest => do
      let u ← hexUnit a b c d
      if u < 0xd800 ∨ 0xe000 ≤ u then some (utf8 u, rest)
      else if 0xdc00 ≤ u then none
      else match rest with
        | 92 :: 117 :: a :: b :: c :: d :: rest => do
            let v ← hexUnit a b c d
            if 0xdc00 ≤ v ∧ v < 0xe000 then
              some (utf8 (0x10000 + (u - 0xd800) * 0x400 + (v - 0xdc00)), rest)
            else none
        | _ => none
  | _ => none

/-- What follows a backslash. -/
def readEscape : List UInt8 → Option (List UInt8 × List UInt8)
  | c :: rest =>
      if c = 34 ∨ c = 92 ∨ c = 47 then some ([c], rest)
      else if c = 98 then some ([8], rest)
      else if c = 102 then some ([12], rest)
      else if c = 110 then some ([10], rest)
      else if c = 114 then some ([13], rest)
      else if c = 116 then some ([9], rest)
      else if c = 117 then readUnicode rest
      else none
  | [] => none

/-- What follows the opening quote, up to the closing one. -/
def readChars : ℕ → List UInt8 → Option (List UInt8 × List UInt8)
  | fuel + 1, c :: rest =>
      if c = 34 then some ([], rest)
      else if c = 92 then do
        let (decoded, rest) ← readEscape rest
        let (s, rest) ← readChars fuel rest
        some (decoded ++ s, rest)
      else if c < 0x20 then none
      else do
        let (s, rest) ← readChars fuel rest
        some (c :: s, rest)
  | _, _ => none

theorem readChars_escape {fuel : ℕ} {text decoded rest : List UInt8}
    (h : readEscape text = some (decoded, rest)) :
    readChars (fuel + 1) (92 :: text) =
      (readChars fuel rest).map fun p => (decoded ++ p.1, p.2) := by
  rw [readChars, if_neg (by decide), if_pos rfl, h]
  simp only [Option.bind_eq_bind, Option.bind_some]
  cases readChars fuel rest <;> rfl

theorem readChars_plain {fuel : ℕ} {c : UInt8} {rest : List UInt8} (hquote : c ≠ 34)
    (hbackslash : c ≠ 92) (hcontrol : ¬ c < 0x20) :
    readChars (fuel + 1) (c :: rest) = (readChars fuel rest).map fun p => (c :: p.1, p.2) := by
  rw [readChars, if_neg hquote, if_neg hbackslash, if_neg hcontrol]
  cases readChars fuel rest <;> rfl

/-- A string literal. -/
def readString : List UInt8 → Option (List UInt8 × List UInt8)
  | 34 :: rest => readChars rest.length rest
  | _ => none

/-! ### Texts -/

def isSpace (c : UInt8) : Bool := c == 32 || c == 9 || c == 10 || c == 13

def skipSpaces (text : List UInt8) : List UInt8 := text.dropWhile isSpace

/-- The characters of numbers and of the three names. -/
def isTokenChar (c : UInt8) : Bool :=
  (48 ≤ c && c ≤ 57) || (97 ≤ c && c ≤ 122) || (65 ≤ c && c ≤ 90) || c == 43 || c == 45 || c == 46

def nullName : List UInt8 := [110, 117, 108, 108]

def trueName : List UInt8 := [116, 114, 117, 101]

def falseName : List UInt8 := [102, 97, 108, 115, 101]

/-- What a number can be written as. -/
structure IsNumberToken (token : List UInt8) : Prop where
  ne_nil : token ≠ []
  chars : ∀ c ∈ token, isTokenChar c = true
  ne_null : token ≠ nullName
  ne_true : token ≠ trueName
  ne_false : token ≠ falseName

def tokenValue (token : List UInt8) : Option (JsonValue (List UInt8)) :=
  if token = [] then none
  else if token = nullName then some .null
  else if token = trueName then some (.bool true)
  else if token = falseName then some (.bool false)
  else some (.number token)

mutual

/-- A value with spaces before it. -/
def readValue : ℕ → List UInt8 → Option (JsonValue (List UInt8) × List UInt8)
  | 0, _ => none
  | fuel + 1, text =>
      match skipSpaces text with
      | 34 :: rest => (readString (34 :: rest)).map fun p => (.string p.1, p.2)
      | 91 :: rest =>
          match skipSpaces rest with
          | 93 :: rest => some (.array [], rest)
          | _ => (readElements fuel rest).map fun p => (.array p.1, p.2)
      | 123 :: rest =>
          match skipSpaces rest with
          | 125 :: rest => some (.object [], rest)
          | _ => (readMembers fuel rest).map fun p => (.object p.1, p.2)
      | text => (tokenValue (text.takeWhile isTokenChar)).map fun v =>
          (v, text.dropWhile isTokenChar)

/-- One element or more, and the closing bracket. -/
def readElements : ℕ → List UInt8 → Option (List (JsonValue (List UInt8)) × List UInt8)
  | 0, _ => none
  | fuel + 1, text => do
      let (v, text) ← readValue fuel text
      match skipSpaces text with
      | 44 :: text => (readElements fuel text).map fun p => (v :: p.1, p.2)
      | 93 :: text => some ([v], text)
      | _ => none

/-- One member or more, and the closing brace. -/
def readMembers :
    ℕ → List UInt8 → Option (List (List UInt8 × JsonValue (List UInt8)) × List UInt8)
  | 0, _ => none
  | fuel + 1, text => do
      let (key, text) ← readString (skipSpaces text)
      match skipSpaces text with
      | 58 :: text => do
          let (v, text) ← readValue fuel text
          match skipSpaces text with
          | 44 :: text => (readMembers fuel text).map fun p => ((key, v) :: p.1, p.2)
          | 125 :: text => some ([(key, v)], text)
          | _ => none
      | _ => none

end

/-! ### Reading what has been written -/

/-- A token ends where the text does not go on with one of its characters. -/
def EndsToken (rest : List UInt8) : Prop := ∀ c ∈ rest.head?, isTokenChar c = false

theorem endsToken_cons {c : UInt8} (rest : List UInt8) (hc : isTokenChar c = false) :
    EndsToken (c :: rest) := by
  intro d hd
  rwa [← Option.mem_some.mp hd]

theorem takeWhile_token {token rest : List UInt8} (htoken : ∀ c ∈ token, isTokenChar c = true)
    (hrest : EndsToken rest) : (token ++ rest).takeWhile isTokenChar = token ∧
      (token ++ rest).dropWhile isTokenChar = rest := by
  rw [List.takeWhile_append_of_pos htoken, List.dropWhile_append_of_pos htoken]
  cases rest with
  | nil => simp
  | cons c rest =>
      have hc : ¬ isTokenChar c = true := by
        rw [hrest c rfl]
        exact Bool.false_ne_true
      rw [List.takeWhile_cons_of_neg hc, List.dropWhile_cons_of_neg hc, List.append_nil]
      exact ⟨rfl, rfl⟩

theorem readValue_token (fuel : ℕ) {token rest : List UInt8} (hne : token ≠ [])
    (htoken : ∀ c ∈ token, isTokenChar c = true) (hrest : EndsToken rest) :
    readValue (fuel + 1) (token ++ rest) = (tokenValue token).map fun v => (v, rest) := by
  obtain ⟨htake, hdrop⟩ := takeWhile_token htoken hrest
  obtain ⟨c, token, rfl⟩ := List.exists_cons_of_ne_nil hne
  have hc := htoken c List.mem_cons_self
  have hspaces : skipSpaces (c :: token ++ rest) = c :: token ++ rest := by
    refine List.dropWhile_cons_of_neg fun hspace => ?_
    simp only [isSpace, Bool.or_eq_true, beq_iff_eq] at hspace
    rcases hspace with ((rfl | rfl) | rfl) | rfl <;> cases hc
  rw [readValue, hspaces]
  split
  next heq =>
    obtain rfl := (List.cons.inj heq).1
    cases hc
  next heq =>
    obtain rfl := (List.cons.inj heq).1
    cases hc
  next heq =>
    obtain rfl := (List.cons.inj heq).1
    cases hc
  next => rw [htake, hdrop]

theorem readValue_string (fuel : ℕ) (text : List UInt8) :
    readValue (fuel + 1) (34 :: text) = (readString (34 :: text)).map fun p =>
      (.string p.1, p.2) := rfl

theorem readValue_object_nil (fuel : ℕ) (rest : List UInt8) :
    readValue (fuel + 1) (123 :: 125 :: rest) = some (.object [], rest) := rfl

theorem readValue_object (fuel : ℕ) (text : List UInt8) :
    readValue (fuel + 1) (123 :: 34 :: text) = (readMembers fuel (34 :: text)).map fun p =>
      (.object p.1, p.2) := rfl

section Members

variable {fuel : ℕ} {key text more rest : List UInt8} {v : JsonValue (List UInt8)}

/-- A brace where a member is expected. -/
theorem readMembers_brace (fuel : ℕ) (rest : List UInt8) :
    readMembers fuel (125 :: rest) = none := by
  cases fuel <;> rfl

variable (hkey : readString (34 :: text) = some (key, 58 :: more))

include hkey

theorem readMembers_none (hv : readValue fuel more = none) :
    readMembers (fuel + 1) (34 :: text) = none := by
  have hspaces : skipSpaces (34 :: text) = 34 :: text := rfl
  have hcolon : skipSpaces (58 :: more) = 58 :: more := rfl
  rw [readMembers, hspaces, hkey]
  simp only [Option.bind_eq_bind, Option.bind_some, hcolon, hv, Option.bind_none]

theorem readMembers_comma (hv : readValue fuel more = some (v, 44 :: rest)) :
    readMembers (fuel + 1) (34 :: text) =
      (readMembers fuel rest).map fun p => ((key, v) :: p.1, p.2) := by
  have hspaces : skipSpaces (34 :: text) = 34 :: text := rfl
  have hcolon : skipSpaces (58 :: more) = 58 :: more := rfl
  have hcomma : skipSpaces (44 :: rest) = 44 :: rest := rfl
  rw [readMembers, hspaces, hkey]
  simp only [Option.bind_eq_bind, Option.bind_some, hcolon, hv, hcomma]

theorem readMembers_last (hv : readValue fuel more = some (v, 125 :: rest)) :
    readMembers (fuel + 1) (34 :: text) = some ([(key, v)], rest) := by
  have hspaces : skipSpaces (34 :: text) = 34 :: text := rfl
  have hcolon : skipSpaces (58 :: more) = 58 :: more := rfl
  have hbrace : skipSpaces (125 :: rest) = 125 :: rest := rfl
  rw [readMembers, hspaces, hkey]
  simp only [Option.bind_eq_bind, Option.bind_some, hcolon, hv, hbrace]

end Members

/-- A whole text: one value and nothing but spaces after it. -/
def readJson (text : List UInt8) : Option (JsonValue (List UInt8)) :=
  match readValue (text.length + 1) text with
  | some (v, rest) => if skipSpaces rest = [] then some v else none
  | none => none

end WebcomSdk.Lib
