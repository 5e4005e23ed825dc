import WebcomSdk.Cache.TreenodeJson
import WebcomSdk.Datasync.KeyCmp
import WebcomSdk.Lib.Buffer

/-!
The three printers of `lib/datasync/cache/treenode.c`: `treenode_to_json_len`
counts, `treenode_to_json` writes into a buffer, `ftreenode_to_json` writes to a
stream. The text that the last two emit is `treenodeToJson`, and the first one
never counts less. The bytes of a key or string are those before its NUL, and a
NULL node is `none`.

All three count in `int`. What `treenode_to_json_len` adds up must stay in its
range, past which signed addition has no value; what `treenode_to_json` adds to
its pointer is the number of bytes that a callee wrote, narrowed to an `int`.
-/

namespace WebcomSdk.Cache

open WebcomSdk.Lib WebcomSdk.Collection WebcomSdk.Datasync

/-! ### Escapes -/

/-- What `json_escaped_str_len` counts for one character. -/
def escapedCharLen (c : UInt8) : ℕ :=
  if c = 34 ∨ c = 92 ∨ c = 8 ∨ c = 12 ∨ c = 10 ∨ c = 13 ∨ c = 9 then 2
  else if c ≤ 0x1f then 7
  else 1

/-- A count as an `int`. -/
def intOf (n : ℕ) : Option ℕ := if n < 2 ^ 31 then some n else none

/-- The sum of two `int`s; past the range it is undefined. -/
def intAdd (a b : ℕ) : Option ℕ := intOf (a + b)

/-- `json_escaped_str_len`. -/
def jsonEscapedStrLen (str : Bytes) : Option ℕ := do
  let ret ← str.foldlM (fun ret c => intAdd ret (escapedCharLen c)) 0
  intAdd ret 2

/-- `sprintf(p, ..)`, the text with the NUL that is put behind it. -/
def sprintf (text : Bytes) : Printer UInt8 := puts text >=> putHere 0

/-- `p += print(p)`, where `print` returns as an `int` how far it came. -/
def addInt (print : Printer UInt8) : Printer UInt8 := fun w =>
  match print w with
  | none => none
  | some w' =>
      let p : ℤ := w.pos + toInt (w'.pos - w.pos)
      if p < 0 then none else some ⟨w'.buf, p.toNat⟩

/-- The `switch` of `json_escape_str`. -/
def escapeCharBuf (c : UInt8) : Printer UInt8 :=
  if c = 34 then putc 92 >=> putc 34
  else if c = 92 then putc 92 >=> putc 92
  else if c = 8 then putc 92 >=> putc 98
  else if c = 12 then putc 92 >=> putc 102
  else if c = 10 then putc 92 >=> putc 110
  else if c = 13 then putc 92 >=> putc 114
  else if c = 9 then putc 92 >=> putc 116
  else if c ≤ 0x1f then sprintf (ascii "\\u" ++ (hexnum c.toUInt64).drop 12)
  else putc c

def escapeLoopBuf : Bytes → Printer UInt8
  | [] => some
  | c :: raw => escapeCharBuf c >=> escapeLoopBuf raw

/-- `json_escape_str`. -/
def jsonEscapeStrBuf (raw : Bytes) : Printer UInt8 :=
  putc 34 >=> escapeLoopBuf raw >=> putc 34

/-- The `switch` of `fjson_escape_str`. -/
def fescapeChar (stream : Bytes) (c : UInt8) : Bytes :=
  if c = 34 then stream ++ ascii "\\\""
  else if c = 92 then stream ++ ascii "\\\\"
  else if c = 8 then stream ++ ascii "\\b"
  else if c = 12 then stream ++ ascii "\\f"
  else if c = 10 then stream ++ ascii "\\n"
  else if c = 13 then stream ++ ascii "\\r"
  else if c = 9 then stream ++ ascii "\\t"
  else if c ≤ 0x1f then stream ++ (ascii "\\u" ++ (hexnum c.toUInt64).drop 12)
  else stream ++ [c]

/-- `fjson_escape_str`. -/
def fjsonEscapeStr (raw stream : Bytes) : Bytes :=
  raw.foldl fescapeChar (stream ++ [34]) ++ [34]

/-! ### Trees -/

section Printers

variable (g16 : DoubleBits → Bytes)

/-- `json_escaped_str_len(e->key) + 1 + treenode_to_json_len(&e->node)`. -/
def entryLen (key : Key) (nodeLen : Option ℕ) : Option ℕ := do
  let keyLen ← jsonEscapedStrLen key
  let keyLen ← intAdd keyLen 1
  let nodeLen ← nodeLen
  intAdd keyLen nodeLen

mutual

def nodeToJsonLen : Treenode → Option ℕ
  | .leafBool b => some (if b then 4 else 5)
  | .leafNull => some 4
  | .leafNumber d _ => intOf (g16 d).length
  | .leafString s _ => jsonEscapedStrLen s
  | .internal children _ =>
      (childrenToJsonLen children (0, 0)).bind fun (ret, nonNull) =>
        (if nonNull > 0 then intAdd ret (nonNull - 1) else some ret).bind fun ret =>
          intAdd ret 2

/-- The loop over the children, from the values of `ret` and `non_null`. The
second counts all of them. -/
def childrenToJsonLen : Children → ℕ × ℕ → Option (ℕ × ℕ)
  | .nil, acc => some acc
  | .node l k n r _, acc =>
      (childrenToJsonLen l acc).bind fun (ret, nonNull) =>
        (if n.isNull then some ret
          else (entryLen k (nodeToJsonLen n)).bind fun len => intAdd ret len).bind fun ret =>
            (intAdd nonNull 1).bind fun nonNull => childrenToJsonLen r (ret, nonNull)

end

/-- `treenode_to_json_len`. -/
def treenodeToJsonLen : Option Treenode → Option ℕ
  | none => some 4
  | some n => nodeToJsonLen g16 n

mutual

def nodeToJsonBuf : Treenode → Printer UInt8
  | .leafBool b => puts (ascii (if b then "true" else "false")) >=> putHere 0
  | .leafNull => puts (ascii "null") >=> putHere 0
  | .leafNumber d _ => addInt (sprintf (g16 d)) >=> putHere 0
  | .leafString s _ => addInt (jsonEscapeStrBuf s) >=> putHere 0
  | .internal children _ =>
      (putc 123 >=> childrenToJsonBuf false children >=> putc 125) >=> putHere 0

/-- The loop over the children, `hasNext` as in `childrenToJson`. -/
def childrenToJsonBuf (hasNext : Bool) : Children → Printer UInt8
  | .nil => some
  | .node l k n r _ =>
      childrenToJsonBuf true l >=>
        (if n.isNull then some
          else addInt (jsonEscapeStrBuf k) >=> putc colon >=> addInt (nodeToJsonBuf n) >=>
            (if hasNext || r.size > 0 then putc 44 else some)) >=>
        childrenToJsonBuf hasNext r

end

/-- `treenode_to_json`. What it returns is the position left, as an `int`. -/
def treenodeToJsonBuf : Option Treenode → Printer UInt8
  | none => puts (ascii "null") >=> putHere 0
  | some n => nodeToJsonBuf g16 n

mutual

def fnodeToJson : Treenode → Bytes → Bytes
  | .leafBool b, stream => stream ++ ascii (if b then "true" else "false")
  | .leafNull, stream => stream ++ ascii "null"
  | .leafNumber d _, stream => stream ++ g16 d
  | .leafString s _, stream => fjsonEscapeStr s stream
  | .internal children _, stream => fchildrenToJson false children (stream ++ [123]) ++ [125]

def fchildrenToJson (hasNext : Bool) : Children → Bytes → Bytes
  | .nil, stream => stream
  | .node l k n r _, stream =>
      let stream := fchildrenToJson true l stream
      let stream :=
        if n.isNull then stream
        else
          let stream := fnodeToJson n (fjsonEscapeStr k stream ++ [colon])
          if hasNext || r.size > 0 then stream ++ [44] else stream
      fchildrenToJson hasNext r stream

end

/-- `ftreenode_to_json`. -/
def ftreenodeToJson : Option Treenode → Bytes → Bytes
  | none, stream => stream ++ ascii "null"
  | some n, stream => fnodeToJson g16 n stream

/-- The text of a node that may be NULL. -/
def jsonText : Option Treenode → Bytes
  | none => ascii "null"
  | some n => treenodeToJson g16 n

/-! ### What must be in range -/

/-- The bytes that the printed form of a string is counted as. -/
def literalRoom (str : Bytes) : ℕ := (str.map escapedCharLen).sum + 2

mutual

/-- The bytes that the text of a tree is counted as, commas for the null children
included. -/
def nodeRoom : Treenode → ℕ
  | .leafBool b => if b then 4 else 5
  | .leafNull => 4
  | .leafNumber d _ => (g16 d).length
  | .leafString s _ => literalRoom s
  | .internal children _ => entriesRoom children + (children.size - 1) + 2

def entriesRoom : Children → ℕ
  | .nil => 0
  | .node l k n r _ =>
      entriesRoom l + (if n.isNull then 0 else literalRoom k + 1 + nodeRoom n) + entriesRoom r

end

def treenodeRoom : Option Treenode → ℕ
  | none => 4
  | some n => nodeRoom g16 n

mutual

/-- Whatever is added to the pointer as a count is in the range of an `int`: the
literals, the numbers and the texts of the children that are not null. -/
def CountsFit : Treenode → Prop
  | .leafBool _ | .leafNull => True
  | .leafNumber d _ => (g16 d).length < 2 ^ 31
  | .leafString s _ => (jsonEscapeStr s).length < 2 ^ 31
  | .internal children _ => EntriesFit children

def EntriesFit : Children → Prop
  | .nil => True
  | .node l k n r _ =>
      EntriesFit l ∧
        (n.isNull = false → (jsonEscapeStr k).length < 2 ^ 31 ∧
          (treenodeToJson g16 n).length < 2 ^ 31 ∧ CountsFit n) ∧
        EntriesFit r

end

end Printers

/-! ### Counts in range -/

theorem intOf_of_lt {n : ℕ} (h : n < 2 ^ 31) : intOf n = some n := if_pos h

theorem intOf_of_le {n : ℕ} (h : 2 ^ 31 ≤ n) : intOf n = none := if_neg (not_lt.mpr h)

/-- A sum is in range when it is at the end: no part of it is past the range. -/
theorem intOf_bind_intAdd (a b : ℕ) : ((intOf a).bind fun x => intAdd x b) = intOf (a + b) := by
  by_cases h : a < 2 ^ 31
  · rw [intOf_of_lt h, Option.bind_some, intAdd]
  · rw [intOf_of_le (by omega), intOf_of_le (by omega), Option.bind_none]

/-- The sum of two counts, each of which may be out of range. -/
theorem intOf_bind_intOf (a b : ℕ) :
    ((intOf a).bind fun x => (intOf b).bind fun y => intAdd x y) = intOf (a + b) := by
  by_cases h : b < 2 ^ 31
  · simp only [intOf_of_lt h, Option.bind_some, intOf_bind_intAdd]
  · have hsum : intOf (a + b) = none := intOf_of_le (by omega)
    simp only [intOf_of_le (not_lt.mp h), hsum, Option.bind_none, Option.bind_fun_none]

theorem jsonEscapedStrLen_eq (str : Bytes) : jsonEscapedStrLen str = intOf (literalRoom str) := by
  have hloop (ret : ℕ) (hret : ret < 2 ^ 31) :
      str.foldlM (fun ret c => intAdd ret (escapedCharLen c)) ret =
        intOf (ret + (str.map escapedCharLen).sum) := by
    induction str generalizing ret with
    | nil => exact (if_pos hret).symm
    | cons c str ih =>
        rw [List.foldlM_cons, List.map_cons, List.sum_cons, ← Nat.add_assoc]
        by_cases hc : ret + escapedCharLen c < 2 ^ 31
        · rw [intAdd, intOf, if_pos hc]
          exact ih _ hc
        · rw [intAdd, intOf, if_neg hc, intOf, if_neg (by omega)]
          rfl
  rw [jsonEscapedStrLen, hloop 0 (by decide), Nat.zero_add]
  exact intOf_bind_intAdd _ 2

/-! ### Escapes agree -/

/-- One character of `jsonEscapeStr`. -/
def escapeChar (c : UInt8) : Bytes :=
  if c = 34 then [92, 34]
  else if c = 92 then [92, 92]
  else if c = 8 then ascii "\\b"
  else if c = 12 then ascii "\\f"
  else if c = 10 then ascii "\\n"
  else if c = 13 then ascii "\\r"
  else if c = 9 then ascii "\\t"
  else if c ≤ 0x1f then ascii "\\u" ++ (hexnum c.toUInt64).drop 12
  else [c]

theorem jsonEscapeStr_eq (raw : Bytes) :
    jsonEscapeStr raw = [34] ++ raw.flatMap escapeChar ++ [34] := rfl

theorem length_escapeChar_le (c : UInt8) : (escapeChar c).length ≤ escapedCharLen c := by
  have hhex : (ascii "\\u" ++ (hexnum c.toUInt64).drop 12).length = 6 := by
    simp [ascii, hexnum]
  by_cases h : c = 34 ∨ c = 92 ∨ c = 8 ∨ c = 12 ∨ c = 10 ∨ c = 13 ∨ c = 9
  · rw [escapedCharLen, if_pos h]
    rcases h with rfl | rfl | rfl | rfl | rfl | rfl | rfl <;> decide
  · rw [escapedCharLen, if_neg h]
    simp only [not_or] at h
    rw [escapeChar, if_neg h.1, if_neg h.2.1, if_neg h.2.2.1, if_neg h.2.2.2.1,
      if_neg h.2.2.2.2.1, if_neg h.2.2.2.2.2.1, if_neg h.2.2.2.2.2.2]
    split
    · rw [hhex]
      omega
    · rfl

theorem length_jsonEscapeStr_le (raw : Bytes) :
    (jsonEscapeStr raw).length ≤ literalRoom raw := by
  have hloop : (raw.flatMap escapeChar).length ≤ (raw.map escapedCharLen).sum := by
    rw [List.length_flatMap]
    exact List.sum_le_sum fun c _ => length_escapeChar_le c
  simp only [jsonEscapeStr_eq, literalRoom, List.length_append, List.length_singleton]
  omega

theorem emits_escapeCharBuf (c : UInt8) : Emits (escapeCharBuf c) (escapeChar c) := by
  have hpair (d : UInt8) : Emits (putc 92 >=> putc d) [92, d] := (emits_putc 92).comp (emits_putc d)
  rw [escapeCharBuf, escapeChar]
  refine (hpair 34).ite ((hpair 92).ite ((hpair 98).ite ((hpair 102).ite ((hpair 110).ite
    ((hpair 114).ite ((hpair 116).ite ?_))))))
  exact ((emits_puts _).terminated 0).ite (emits_putc c)

theorem emits_escapeLoopBuf (raw : Bytes) :
    Emits (escapeLoopBuf raw) (raw.flatMap escapeChar) := by
  induction raw with
  | nil => exact emits_nil
  | cons c raw ih => exact (emits_escapeCharBuf c).comp ih

theorem emits_jsonEscapeStrBuf (raw : Bytes) :
    Emits (jsonEscapeStrBuf raw) (jsonEscapeStr raw) := by
  rw [jsonEscapeStr_eq, List.append_assoc]
  exact (emits_putc 34).comp ((emits_escapeLoopBuf raw).comp (emits_putc 34))

theorem fescapeChar_eq (stream : Bytes) (c : UInt8) :
    fescapeChar stream c = stream ++ escapeChar c := by
  have hite : ∀ (p : Prop) [Decidable p] (s t : Bytes),
      (if p then stream ++ s else stream ++ t) = stream ++ if p then s else t := by
    intro p _ s t
    exact (apply_ite (stream ++ ·) p s t).symm
  simp only [fescapeChar, hite]
  rfl

theorem fjsonEscapeStr_eq (raw stream : Bytes) :
    fjsonEscapeStr raw stream = stream ++ jsonEscapeStr raw := by
  have hloop (stream : Bytes) :
      raw.foldl fescapeChar stream = stream ++ raw.flatMap escapeChar := by
    induction raw generalizing stream with
    | nil => simp
    | cons c raw ih =>
        rw [List.foldl_cons, ih, fescapeChar_eq, List.flatMap_cons, List.append_assoc]
  rw [fjsonEscapeStr, hloop, jsonEscapeStr_eq]
  simp only [List.append_assoc]

/-! ### Trees agree -/

/-- The pointer is moved behind the text while its count is in range. -/
theorem emits_addInt {print : Printer UInt8} {text : Bytes} (hprint : Emits print text)
    (hcount : text.length < 2 ^ 31) : Emits (addInt print) text := by
  intro w hroom
  obtain ⟨w', hw', hwritten⟩ := hprint w hroom
  have hmoved : (w.pos : ℤ) + toInt ((w'.pos : ℤ) - w.pos) = w'.pos := by
    have hgap : (w'.pos : ℤ) - w.pos = (text.length : ℤ) := by
      rw [hwritten.pos]
      push_cast
      ring
    rw [hgap, toInt_of_small hcount, hwritten.pos]
    push_cast
    ring
  refine ⟨w', ?_, hwritten⟩
  simp only [addInt, hw', hmoved, Int.toNat_natCast]
  exact if_neg (not_lt.mpr (Int.natCast_nonneg _))

section Agree

variable (g16 : DoubleBits → Bytes)

mutual

/-- A node is printed and then the NUL is put behind it. -/
theorem nodeToJsonBuf_terminated :
    ∀ n : Treenode, CountsFit g16 n → ∃ print, nodeToJsonBuf g16 n = print >=> putHere 0 ∧
      Emits print (treenodeToJson g16 n)
  | .leafBool b, _ => by
      rw [nodeToJsonBuf, treenodeToJson]
      exact ⟨_, rfl, emits_puts _⟩
  | .leafNull, _ => by
      rw [nodeToJsonBuf, treenodeToJson]
      exact ⟨_, rfl, emits_puts _⟩
  | .leafNumber d _, hfit => by
      rw [CountsFit] at hfit
      rw [nodeToJsonBuf, treenodeToJson]
      exact ⟨_, rfl, emits_addInt ((emits_puts _).terminated 0) hfit⟩
  | .leafString s _, hfit => by
      rw [CountsFit] at hfit
      rw [nodeToJsonBuf, treenodeToJson]
      exact ⟨_, rfl, emits_addInt (emits_jsonEscapeStrBuf s) hfit⟩
  | .internal children _, hfit => by
      rw [CountsFit] at hfit
      rw [nodeToJsonBuf, treenodeToJson, List.append_assoc]
      exact ⟨_, rfl, (emits_putc 123).comp
        ((emits_childrenToJsonBuf false children hfit).comp (emits_putc 125))⟩

theorem emits_childrenToJsonBuf (hasNext : Bool) :
    ∀ t : Children, EntriesFit g16 t →
      Emits (childrenToJsonBuf g16 hasNext t) (childrenToJson g16 hasNext t)
  | .nil, _ => by
      rw [childrenToJsonBuf, childrenToJson]
      exact emits_nil
  | .node l k n r _, hfit => by
      rw [EntriesFit] at hfit
      obtain ⟨hfitl, hfitn, hfitr⟩ := hfit
      have hl := emits_childrenToJsonBuf true l hfitl
      have hr := emits_childrenToJsonBuf hasNext r hfitr
      rw [childrenToJsonBuf, childrenToJson, List.append_assoc]
      refine hl.comp (Emits.comp ?_ hr)
      cases hnull : n.isNull with
      | true => exact emits_nil
      | false =>
          obtain ⟨hkey, htext, hfit⟩ := hfitn hnull
          have hn : Emits (nodeToJsonBuf g16 n) (treenodeToJson g16 n) := by
            obtain ⟨print, hprint, hemits⟩ := nodeToJsonBuf_terminated n hfit
            exact hprint ▸ hemits.terminated 0
          have hcomma : Emits (if hasNext || r.size > 0 then putc (44 : UInt8) else some)
              (if hasNext || r.size > 0 then [44] else []) := by
            split_ifs
            · exact emits_putc 44
            · exact emits_nil
          have h := (emits_addInt (emits_jsonEscapeStrBuf k) hkey).comp
            ((emits_putc colon).comp ((emits_addInt hn htext).comp hcomma))
          rw [if_neg Bool.false_ne_true, if_neg Bool.false_ne_true]
          simpa only [List.append_assoc, List.cons_append, List.nil_append] using h

end

/-- A buffer with room for the text and its NUL then begins with the two. -/
theorem treenodeToJsonBuf_eq (n : Option Treenode) (hfit : ∀ m ∈ n, CountsFit g16 m)
    {buf : Bytes} (hroom : (jsonText g16 n).length < buf.length) :
    treenodeToJsonBuf g16 n ⟨buf, 0⟩ =
      some ⟨jsonText g16 n ++ 0 :: buf.drop ((jsonText g16 n).length + 1),
        (jsonText g16 n).length⟩ := by
  have hterminated : ∃ print, treenodeToJsonBuf g16 n = print >=> putHere 0 ∧
      Emits print (jsonText g16 n) := by
    cases n with
    | none => exact ⟨_, rfl, emits_puts _⟩
    | some n => exact nodeToJsonBuf_terminated g16 n (hfit n rfl)
  obtain ⟨print, hprint, hemits⟩ := hterminated
  rw [hprint, hemits.print_terminated 0]
  · simp
  · show 0 + (jsonText g16 n).length < buf.length
    omega

mutual

theorem fnodeToJson_eq :
    ∀ (n : Treenode) (stream : Bytes),
      fnodeToJson g16 n stream = stream ++ treenodeToJson g16 n
  | .leafBool b, stream => by rw [fnodeToJson, treenodeToJson]
  | .leafNull, stream => by rw [fnodeToJson, treenodeToJson]
  | .leafNumber d _, stream => by rw [fnodeToJson, treenodeToJson]
  | .leafString s _, stream => by rw [fnodeToJson, treenodeToJson, fjsonEscapeStr_eq]
  | .internal children _, stream => by
      rw [fnodeToJson, treenodeToJson, fchildrenToJson_eq false children]
      simp only [List.append_assoc]
      rfl

theorem fchildrenToJson_eq (hasNext : Bool) :
    ∀ (t : Children) (stream : Bytes),
      fchildrenToJson g16 hasNext t stream = stream ++ childrenToJson g16 hasNext t
  | .nil, stream => by rw [fchildrenToJson, childrenToJson, List.append_nil]
  | .node l k n r _, stream => by
      rw [fchildrenToJson, childrenToJson]
      simp only [fchildrenToJson_eq true l, fchildrenToJson_eq hasNext r, fnodeToJson_eq n,
        fjsonEscapeStr_eq]
      cases n.isNull with
      | true => simp
      | false => split_ifs <;> simp

end

/-- The two counts of the loop over the children. -/
def counts (ret nonNull : ℕ) : Option (ℕ × ℕ) :=
  (intOf ret).bind fun ret => (intOf nonNull).map fun nonNull => (ret, nonNull)

/-- One turn of the loop over the children counts on from counts in range. -/
theorem counts_bind {ret nonNull ret' nonNull' : ℕ} {body : ℕ × ℕ → Option (ℕ × ℕ)}
    (hret : ret ≤ ret') (hnonNull : nonNull ≤ nonNull')
    (hbody : ret < 2 ^ 31 → nonNull < 2 ^ 31 → body (ret, nonNull) = counts ret' nonNull') :
    (counts ret nonNull).bind body = counts ret' nonNull' := by
  by_cases h : ret < 2 ^ 31
  · by_cases h' : nonNull < 2 ^ 31
    · rw [counts, intOf_of_lt h, intOf_of_lt h']
      exact hbody h h'
    · rw [counts, counts, intOf_of_le (not_lt.mp h'), intOf_of_le (n := nonNull') (by omega)]
      simp
  · rw [counts, counts, intOf_of_le (not_lt.mp h), intOf_of_le (n := ret') (by omega)]
    rfl

/-- The separating commas and the braces are counted last. -/
theorem counts_bind_commas (ret nonNull : ℕ) :
    ((counts ret nonNull).bind fun acc =>
      (if acc.2 > 0 then intAdd acc.1 (acc.2 - 1) else some acc.1).bind fun ret => intAdd ret 2) =
        intOf (ret + (nonNull - 1) + 2) := by
  by_cases h : ret < 2 ^ 31 ∧ nonNull < 2 ^ 31
  · rw [counts, intOf_of_lt h.1, intOf_of_lt h.2]
    simp only [Option.bind_some, Option.map_some]
    split
    · exact intOf_bind_intAdd _ 2
    · rw [Option.bind_some, intAdd, Nat.sub_eq_zero_of_le (by omega), Nat.add_zero]
  · rw [intOf_of_le (by omega), counts]
    rcases not_and_or.mp h with h | h
    · rw [intOf_of_le (not_lt.mp h)]
      rfl
    · rw [intOf_of_le (not_lt.mp h)]
      simp

theorem entryLen_eq (key : Key) (room : ℕ) :
    entryLen key (intOf room) = intOf (literalRoom key + 1 + room) :=
  calc entryLen key (intOf room)
      = ((intOf (literalRoom key)).bind fun keyLen => intAdd keyLen 1).bind fun keyLen =>
          (intOf room).bind fun len => intAdd keyLen len := by
        rw [entryLen, jsonEscapedStrLen_eq]
        exact (Option.bind_assoc _ _ _).symm
    _ = intOf (literalRoom key + 1 + room) := by rw [intOf_bind_intAdd, intOf_bind_intOf]

/-- One turn of the loop counts its entry, or nothing, and one more of all. -/
theorem addEntry_eq (n : Treenode) (key : Key) (ret room : ℕ) (hret : ret < 2 ^ 31) :
    (if n.isNull then some ret
      else (entryLen key (intOf room)).bind fun len => intAdd ret len) =
        intOf (ret + if n.isNull then 0 else literalRoom key + 1 + room) := by
  cases n.isNull with
  | true => exact (intOf_of_lt hret).symm
  | false =>
      have hcomm : (fun len => intAdd ret len) = fun len => intAdd len ret := by
        funext len
        rw [intAdd, intAdd, Nat.add_comm]
      rw [if_neg Bool.false_ne_true, if_neg Bool.false_ne_true, entryLen_eq, hcomm,
        intOf_bind_intAdd, Nat.add_comm]

mutual

/-- The count of a node is what its text is counted as, while that is in range. -/
theorem nodeToJsonLen_eq : ∀ n : Treenode, nodeToJsonLen g16 n = intOf (nodeRoom g16 n)
  | .leafBool b => by
      rw [nodeToJsonLen, nodeRoom]
      cases b <;> rfl
  | .leafNull => by
      rw [nodeToJsonLen, nodeRoom]
      rfl
  | .leafNumber d _ => by rw [nodeToJsonLen, nodeRoom]
  | .leafString s _ => by rw [nodeToJsonLen, nodeRoom, jsonEscapedStrLen_eq]
  | .internal children _ => by
      rw [nodeToJsonLen, nodeRoom,
        childrenToJsonLen_eq children 0 0 (Nat.two_pow_pos 31) (Nat.two_pow_pos 31)]
      rw [Nat.zero_add, Nat.zero_add]
      exact counts_bind_commas _ _

/-- The loop, from counts in range. -/
theorem childrenToJsonLen_eq : ∀ (t : Children) (ret nonNull : ℕ), ret < 2 ^ 31 →
    nonNull < 2 ^ 31 → childrenToJsonLen g16 t (ret, nonNull) =
      counts (ret + entriesRoom g16 t) (nonNull + t.size)
  | .nil, ret, nonNull, hret, hnonNull => by
      rw [childrenToJsonLen, entriesRoom, AvlTree.size, counts, Nat.add_zero, Nat.add_zero,
        intOf_of_lt hret, intOf_of_lt hnonNull]
      rfl
  | .node l k n r _, ret, nonNull, hret, hnonNull => by
      rw [childrenToJsonLen, entriesRoom, AvlTree.size,
        childrenToJsonLen_eq l ret nonNull hret hnonNull]
      refine counts_bind (by omega) (by omega) fun hretl hnonNulll => ?_
      have hturn : (if n.isNull then some (ret + entriesRoom g16 l)
          else (entryLen k (nodeToJsonLen g16 n)).bind fun len =>
            intAdd (ret + entriesRoom g16 l) len) =
          intOf (ret + entriesRoom g16 l +
            if n.isNull then 0 else literalRoom k + 1 + nodeRoom g16 n) := by
        rw [nodeToJsonLen_eq n, addEntry_eq n k _ _ hretl]
      generalize (if n.isNull then 0 else literalRoom k + 1 + nodeRoom g16 n) = room at hturn ⊢
      have hr : (counts (ret + entriesRoom g16 l + room) (nonNull + l.size + 1)).bind
          (childrenToJsonLen g16 r) =
            counts (ret + (entriesRoom g16 l + room + entriesRoom g16 r))
              (nonNull + (l.size + 1 + r.size)) :=
        counts_bind (by omega) (by omega) fun hret hnonNull => by
          rw [childrenToJsonLen_eq r _ _ hret hnonNull]
          congr 1 <;> omega
      rw [← hr, counts, Option.bind_assoc]
      simp only [hturn, Option.bind_map]
      rfl

end

mutual

theorem length_treenodeToJson_le :
    ∀ n : Treenode, (treenodeToJson g16 n).length ≤ nodeRoom g16 n
  | .leafBool b => by
      rw [treenodeToJson, nodeRoom]
      cases b <;> decide
  | .leafNull => by
      rw [treenodeToJson, nodeRoom]
      decide
  | .leafNumber d _ => by rw [treenodeToJson, nodeRoom]
  | .leafString s _ => by
      rw [treenodeToJson, nodeRoom]
      exact length_jsonEscapeStr_le s
  | .internal children _ => by
      have hle := length_childrenToJson_le false children
      rw [treenodeToJson, nodeRoom]
      simp only [List.length_append] at hle ⊢
      have hbraces : (ascii "\x7b").length = 1 ∧ (ascii "\x7d").length = 1 := by decide
      rw [hbraces.1, hbraces.2]
      simp only [Bool.false_eq_true, if_false] at hle
      omega

/-- The commas of a part of the children: one behind each entry, but none
behind the last entry of all. -/
theorem length_childrenToJson_le (hasNext : Bool) :
    ∀ t : Children, (childrenToJson g16 hasNext t).length ≤
      entriesRoom g16 t + (if hasNext then t.size else t.size - 1)
  | .nil => by simp [childrenToJson, entriesRoom]
  | .node l k n r _ => by
      have hl := length_childrenToJson_le true l
      have hn := length_treenodeToJson_le n
      have hk := length_jsonEscapeStr_le k
      have hr := length_childrenToJson_le hasNext r
      rw [childrenToJson, entriesRoom, AvlTree.size]
      simp only [List.length_append, if_true] at hl ⊢
      cases n.isNull with
      | true =>
          simp only [if_true, List.length_nil]
          split_ifs at hr ⊢ <;> omega
      | false =>
          simp only [Bool.false_eq_true, if_false, List.length_append, List.length_cons]
          cases hasNext with
          | true =>
              simp only [Bool.true_or, if_true, List.length_singleton] at hr ⊢
              omega
          | false =>
              simp only [Bool.false_or, Bool.false_eq_true, if_false, decide_eq_true_eq] at hr ⊢
              split <;> simp only [List.length_singleton, List.length_nil] <;> omega

end

mutual

/-- The counts that are added to the pointer are those of parts of the text. -/
theorem countsFit_of_length :
    ∀ n : Treenode, (treenodeToJson g16 n).length < 2 ^ 31 → CountsFit g16 n
  | .leafBool _, _ | .leafNull, _ => by rw [CountsFit]; trivial
  | .leafNumber d _, h => by
      rw [treenodeToJson] at h
      rwa [CountsFit]
  | .leafString s _, h => by
      rw [treenodeToJson] at h
      rwa [CountsFit]
  | .internal children _, h => by
      rw [treenodeToJson, List.length_append, List.length_append] at h
      rw [CountsFit]
      exact entriesFit_of_length false children (by omega)

theorem entriesFit_of_length (hasNext : Bool) :
    ∀ t : Children, (childrenToJson g16 hasNext t).length < 2 ^ 31 → EntriesFit g16 t
  | .nil, _ => by rw [EntriesFit]; trivial
  | .node l k n r _, h => by
      rw [childrenToJson, List.length_append, List.length_append] at h
      rw [EntriesFit]
      refine ⟨entriesFit_of_length true l (by omega), fun hnull => ?_,
        entriesFit_of_length hasNext r (by omega)⟩
      rw [hnull, if_neg Bool.false_ne_true, List.length_append, List.length_append,
        List.length_cons] at h
      exact ⟨by omega, by omega, countsFit_of_length n (by omega)⟩

end

theorem length_jsonText_le (n : Option Treenode) :
    (jsonText g16 n).length ≤ treenodeRoom g16 n := by
  cases n with
  | none => exact (show (ascii "null").length ≤ 4 by decide)
  | some n => exact length_treenodeToJson_le g16 n

theorem treenodeToJsonLen_eq (n : Option Treenode) :
    treenodeToJsonLen g16 n = intOf (treenodeRoom g16 n) := by
  cases n with
  | none => exact (intOf_of_lt (by decide : 4 < 2 ^ 31)).symm
  | some n => exact nodeToJsonLen_eq g16 n

theorem ftreenodeToJson_eq (n : Option Treenode) (stream : Bytes) :
    ftreenodeToJson g16 n stream = stream ++ jsonText g16 n := by
  cases n with
  | none => rfl
  | some n => exact fnodeToJson_eq g16 n stream

end Agree

/-! ### The buffers of the callers -/

/-- Both printers emit the same text, it is no longer than counted, and a buffer
of the size that the callers allocate is never overrun: it holds the text and its
NUL. -/
def PrintsRight (g16 : DoubleBits → Bytes) (n : Option Treenode) : Prop :=
  ∃ (text : Bytes) (len size : ℕ),
    treenodeToJsonLen g16 n = some len ∧ intAdd len 1 = some size ∧ text.length ≤ len ∧
      (∀ stream, ftreenodeToJson g16 n stream = stream ++ text) ∧
        ∀ buf : Bytes, buf.length = size → treenodeToJsonBuf g16 n ⟨buf, 0⟩ =
          some ⟨text ++ 0 :: buf.drop (text.length + 1), text.length⟩

theorem literalRoom_quotes (n : ℕ) : literalRoom (List.replicate n 34) = n * 2 + 2 := by
  rw [literalRoom, List.map_replicate, List.sum_replicate, smul_eq_mul]
  rfl

end WebcomSdk.Cache
