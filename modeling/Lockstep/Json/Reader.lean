import Lockstep.Json.Fault
import Lockstep.Token.Rules
/-!
Reading JSON text for data of a known shape. Readers take the characters left and return what they
read with the characters behind it, or the first fault. Nothing is read twice, so a fault of shape
is reported as soon as the value is seen, before anything behind it.
-/

set_option autoImplicit false
set_option relaxedAutoImplicit false

namespace Lockstep

abbrev JsonReader (α : Type) := List Char → Except JsonFault (α × List Char)

namespace JsonReader

variable {α σ : Type}

def unfinished (what : Unfinished) : Except JsonFault α := .error (.unfinished what)

def malformed (what : Malformed) : Except JsonFault α := .error (.malformed what)

def misfit (what : Misfit) : Except JsonFault α := .error (.misfit what)

def skipBlanks (cs : List Char) : List Char :=
  cs.dropWhile fun c => c == ' ' || c == '\n' || c == '\t' || c == '\r'

/-! ### Strings -/

/-- The value of four hexadecimal digits at the front, which must stand on four bytes. -/
def hexFour (cs : List Char) : Except JsonFault Nat :=
  let isHex : Char → Bool := fun c =>
    c.isDigit || ('a' ≤ c && c ≤ 'f') || ('A' ≤ c && c ≤ 'F')
  let ds := cs.take 4
  if ds.length = 4 && ds.all isHex then .ok (numeral 16 ds)
  else if 4 ≤ byteLength ds then malformed .invalidEscape
  else unfinished .string

def isLeading (n : Nat) : Bool := 0xD800 ≤ n && n ≤ 0xDBFF

def isTrailing (n : Nat) : Bool := 0xDC00 ≤ n && n ≤ 0xDFFF

/-- The character that a `u` escape stands for, and how many characters it takes behind the `u`. -/
def unicodeEscape (cs : List Char) : Except JsonFault (Char × Nat) := do
  let n ← hexFour cs
  if isTrailing n then malformed .loneSurrogate
  else if isLeading n then
    match cs.drop 4 with
    | [] => unfinished .string
    | ['\\'] => unfinished .string
    | '\\' :: 'u' :: rest =>
      let m ← hexFour rest
      if isTrailing m then
        return (Char.ofNat ((n - 0xD800) * 0x400 + (m - 0xDC00) + 0x10000), 10)
      else malformed .loneSurrogate
    | _ => malformed .unexpectedEndOfHexEscape
  else return (Char.ofNat n, 4)

/-- The character that an escape stands for, and how many characters it takes behind the
backslash. -/
def escape : List Char → Except JsonFault (Char × Nat)
  | [] => unfinished .string
  | '"' :: _ => .ok ('"', 1)
  | '\\' :: _ => .ok ('\\', 1)
  | '/' :: _ => .ok ('/', 1)
  | 'b' :: _ => .ok ('\x08', 1)
  | 'f' :: _ => .ok ('\x0c', 1)
  | 'n' :: _ => .ok ('\n', 1)
  | 'r' :: _ => .ok ('\r', 1)
  | 't' :: _ => .ok ('\t', 1)
  | 'u' :: rest =>
    match unicodeEscape rest with
    | .ok (c, n) => .ok (c, n + 1)
    | .error fault => .error fault
  | _ => malformed .invalidEscape

def stringChars : List Char → Except JsonFault (List Char × List Char)
  | [] => unfinished .string
  | c :: rest =>
    if c = '"' then .ok ([], rest)
    else if c = '\\' then
      match escape rest with
      | .error fault => .error fault
      | .ok (d, n) =>
        match stringChars (rest.drop n) with
        | .error fault => .error fault
        | .ok (ds, behind) => .ok (d :: ds, behind)
    else if c.toNat < 0x20 then malformed .controlCharacter
    else
      match stringChars rest with
      | .error fault => .error fault
      | .ok (ds, behind) => .ok (c :: ds, behind)
termination_by cs => cs.length
decreasing_by
  · simp only [List.length_drop, List.length_cons]; omega
  · simp only [List.length_cons]; omega

def stringBody : JsonReader String := fun cs => do
  let (s, rest) ← stringChars cs
  return (String.ofList s, rest)

/-! ### Numbers -/

def greatestExact : Nat := Nat.pow 2 64 - 1

def startsWithDigit : List Char → Bool
  | c :: _ => c.isDigit
  | [] => false

/-- Append digits to a significand as long as it stays exact: the significand, the number of digits
appended, and the text behind them. -/
def absorb (significand : Nat) : List Char → Nat × Nat × List Char
  | c :: rest =>
    let longer := significand * 10 + digitValue c
    if c.isDigit && longer ≤ greatestExact then
      let (s, n, behind) := absorb longer rest
      (s, n + 1, behind)
    else (significand, 0, c :: rest)
  | [] => (significand, 0, [])

/-- A positive or zero value `m * 2 ^ q` as a fraction. -/
def fraction (m : Nat) (q : Int) : Nat × Nat := (m * powUp 2 q, powUp 2 (-q))

def quotient (a b : Binary64) : Binary64 :=
  match a, b with
  | .finite m q, .finite n r =>
    let (an, ad) := fraction m q
    let (bn, bd) := fraction n r
    .nearest (an * bd) (ad * bn)
  | _, _ => .zero

def product (a b : Binary64) : Binary64 :=
  match a, b with
  | .finite m q, .finite n r =>
    let (num, den) := fraction (m * n) (q + r)
    .nearest num den
  | _, _ => .infinite

def powerOfTen (e : Nat) : Binary64 := .nearest (Nat.pow 10 e) 1

/-- Divide by `10 ^ e`, in steps of at most `10 ^ 308`; after a few steps nothing is left. -/
def scaleDown : Nat → Binary64 → Nat → Binary64
  | 0, _, _ => .zero
  | steps + 1, v, e =>
    if e ≤ 308 then quotient v (powerOfTen e)
    else scaleDown steps (quotient v (powerOfTen 308)) (e - 308)

/--
The value of `significand * 10 ^ exponent`. Significand and power are rounded each before they are
combined, so the last digit may differ from that of the nearest value.
-/
def floatingValue (significand : Nat) (exponent : Int) : Except JsonFault Binary64 :=
  let v := Binary64.nearest significand 1
  if significand = 0 then .ok .zero
  else if exponent < 0 then .ok (scaleDown 4 v exponent.natAbs)
  else if 308 < exponent then malformed .numberOutOfRange
  else
    match product v (powerOfTen exponent.toNat) with
    | .infinite => malformed .numberOutOfRange
    | w => .ok w

def floating (isNegative : Bool) (significand : Nat) (exponent : Int) : JsonReader JsonNumber :=
  fun rest => do
    let v ← floatingValue significand exponent
    return (.floating isNegative v, rest)

def greatestPower : Nat := Nat.pow 2 31 - 1

/-- A number from behind the `e` of its exponent. -/
def exponentPart (isNegative : Bool) (significand : Nat) (exponent : Int) : JsonReader JsonNumber :=
  fun cs =>
    let (down, cs) := match cs with
      | '+' :: rest => (false, rest)
      | '-' :: rest => (true, rest)
      | cs => (false, cs)
    match cs with
    | [] => unfinished .value
    | c :: _ =>
      if c.isDigit then
        let power := numeral 10 (cs.takeWhile Char.isDigit)
        let rest := cs.dropWhile Char.isDigit
        if greatestPower < power then
          if significand ≠ 0 && !down then malformed .numberOutOfRange
          else .ok (.floating isNegative .zero, rest)
        else floating isNegative significand (if down then exponent - power else exponent + power) rest
      else malformed .invalidNumber

def exponentOrEnd (isNegative : Bool) (significand : Nat) (exponent : Int) : JsonReader JsonNumber
  | 'e' :: rest => exponentPart isNegative significand exponent rest
  | 'E' :: rest => exponentPart isNegative significand exponent rest
  | rest => floating isNegative significand exponent rest

/-- A number from behind its decimal point. Digits that no longer fit are dropped. -/
def decimalPart (isNegative : Bool) (significand : Nat) (exponent : Int) : JsonReader JsonNumber :=
  fun cs =>
    let (longer, n, rest) := absorb significand cs
    if startsWithDigit rest then
      exponentOrEnd isNegative longer (exponent - n) (rest.dropWhile Char.isDigit)
    else if n = 0 then
      if rest.isEmpty then unfinished .value else malformed .invalidNumber
    else exponentOrEnd isNegative longer (exponent - n) rest

def afterWhole (isNegative : Bool) (whole : Nat) : JsonReader JsonNumber
  | '.' :: rest => decimalPart isNegative whole 0 rest
  | 'e' :: rest => exponentPart isNegative whole 0 rest
  | 'E' :: rest => exponentPart isNegative whole 0 rest
  | rest =>
    if !isNegative then .ok (.natural whole, rest)
    else if 0 < whole && whole ≤ Nat.pow 2 63 then .ok (.negative whole, rest)
    else .ok (.floating true (.nearest whole 1), rest)

/-- A number from behind its whole part, of which `dropped` digits no longer fit. -/
def afterLongWhole (isNegative : Bool) (significand dropped : Nat) : JsonReader JsonNumber
  | '.' :: rest => decimalPart isNegative significand dropped rest
  | rest => exponentOrEnd isNegative significand dropped rest

def numberBody (isNegative : Bool) : JsonReader JsonNumber
  | [] => unfinished .value
  | c :: rest =>
    if c = '0' then
      if startsWithDigit rest then malformed .invalidNumber else afterWhole isNegative 0 rest
    else if c.isDigit then
      let (significand, _, behind) := absorb (digitValue c) rest
      if startsWithDigit behind then
        afterLongWhole isNegative significand (behind.takeWhile Char.isDigit).length
          (behind.dropWhile Char.isDigit)
      else afterWhole isNegative significand behind
    else malformed .invalidNumber

/-! ### Other values -/

def word : List Char → JsonReader Unit
  | [], rest => .ok ((), rest)
  | _ :: _, [] => unfinished .value
  | w :: ws, c :: rest => if c = w then word ws rest else malformed .expectedIdent

/-- The fault of a value that is not of the kind `expected`; blanks in front are gone. -/
def wrongType (expected : String) (cs : List Char) : Except JsonFault α :=
  let report (found : Found) : Except JsonFault α := misfit (.wrongType found expected)
  match cs with
  | 'n' :: rest => do
    let _ ← word ['u', 'l', 'l'] rest
    report .null
  | 't' :: rest => do
    let _ ← word ['r', 'u', 'e'] rest
    report (.boolean true)
  | 'f' :: rest => do
    let _ ← word ['a', 'l', 's', 'e'] rest
    report (.boolean false)
  | '-' :: rest => do
    let (n, _) ← numberBody true rest
    report (.number n)
  | '"' :: rest => do
    let (s, _) ← stringBody rest
    report (.string s)
  | '[' :: _ => report .sequence
  | '\x7b' :: _ => report .map
  | c :: _ =>
    if c.isDigit then do
      let (n, _) ← numberBody false cs
      report (.number n)
    else malformed .expectedValue
  | [] => unfinished .value

def string (expected : String) : JsonReader String := fun cs =>
  match skipBlanks cs with
  | '"' :: rest => stringBody rest
  | cs => wrongType expected cs

def boolean : JsonReader Bool := fun cs =>
  match skipBlanks cs with
  | 't' :: rest => do
    let (_, rest) ← word ['r', 'u', 'e'] rest
    return (true, rest)
  | 'f' :: rest => do
    let (_, rest) ← word ['a', 'l', 's', 'e'] rest
    return (false, rest)
  | cs => wrongType "a boolean" cs

def null : JsonReader Unit := fun cs =>
  match skipBlanks cs with
  | 'n' :: rest => word ['u', 'l', 'l'] rest
  | cs => wrongType "unit" cs

def natural : JsonReader Nat := fun cs =>
  let accept : JsonNumber × List Char → Except JsonFault (Nat × List Char)
    | (.natural n, rest) => .ok (n, rest)
    | (.negative n, _) => misfit (.wrongValue (.number (.negative n)) "usize")
    | (n, _) => misfit (.wrongType (.number n) "usize")
  match skipBlanks cs with
  | '-' :: rest => numberBody true rest >>= accept
  | c :: rest =>
    if c.isDigit then numberBody false (c :: rest) >>= accept else wrongType "usize" (c :: rest)
  | [] => unfinished .value

/-! ### Lists and records -/

/-- Is there another element? `first` tells whether none came before. -/
def nextElement (first : Bool) (cs : List Char) : Except JsonFault (Option (List Char)) :=
  match skipBlanks cs with
  | [] => unfinished .list
  | ']' :: _ => .ok none
  | c :: rest =>
    if first then .ok (some (c :: rest))
    else if c = ',' then
      match skipBlanks rest with
      | [] => unfinished .value
      | ']' :: _ => malformed .trailingComma
      | rest => .ok (some rest)
    else malformed .expectedListCommaOrEnd

def endList (cs : List Char) : Except JsonFault (List Char) :=
  match skipBlanks cs with
  | [] => unfinished .list
  | ']' :: rest => .ok rest
  | ',' :: rest =>
    match skipBlanks rest with
    | ']' :: _ => malformed .trailingComma
    | _ => malformed .trailingCharacters
  | _ => malformed .trailingCharacters

/-- The elements of a list, `rounds` at most. -/
def elements (item : JsonReader α) : Nat → Bool → List Char → Except JsonFault (List α × List Char)
  | 0, _, cs => .ok ([], cs)
  | rounds + 1, first, cs => do
    match ← nextElement first cs with
    | none => return ([], cs)
    | some cs =>
      let (a, rest) ← item cs
      let (as, rest) ← elements item rounds false rest
      return (a :: as, rest)

/-- A list of values; every element takes a character, so the rounds suffice. -/
def list (item : JsonReader α) : JsonReader (List α) := fun cs =>
  match skipBlanks cs with
  | '[' :: rest => do
    let (as, rest) ← elements item (rest.length + 1) true rest
    let rest ← endList rest
    return (as, rest)
  | cs => wrongType "a sequence" cs

def colon (cs : List Char) : Except JsonFault (List Char) :=
  match skipBlanks cs with
  | ':' :: rest => .ok rest
  | [] => unfinished .object
  | _ => malformed .expectedColon

/-- One field of a record: its key, and how its value changes the record. -/
structure Slot (σ : Type) where
  key : String
  read : σ → JsonReader σ

/-- The key of the next field, if there is one; the text then goes on behind the key. -/
def nextKey (first : Bool) (cs : List Char) : Except JsonFault (Option (String × List Char)) := do
  let key : List Char → Except JsonFault (Option (String × List Char)) := fun rest => do
    let (s, rest) ← stringBody rest
    return some (s, rest)
  match skipBlanks cs with
  | [] => unfinished .object
  | '\x7d' :: _ => return none
  | c :: rest =>
    if first then
      if c = '"' then key rest else malformed .keyMustBeString
    else if c = ',' then
      match skipBlanks rest with
      | '"' :: rest => key rest
      | '\x7d' :: _ => malformed .trailingComma
      | [] => unfinished .value
      | _ => malformed .keyMustBeString
    else malformed .expectedObjectCommaOrEnd

/-- The fields of a record by key, `rounds` at most; `seen` holds the keys that came before. -/
def fieldsByKey (slots : List (Slot σ)) :
    Nat → List String → σ → List Char → Except JsonFault (σ × List Char)
  | 0, _, s, cs => .ok (s, cs)
  | rounds + 1, seen, s, cs => do
    match ← nextKey seen.isEmpty cs with
    | none => return (s, cs)
    | some (key, rest) =>
      match slots.find? (·.key == key) with
      | none => misfit (.unknownField key (slots.map Slot.key))
      | some slot =>
        if seen.contains key then misfit (.duplicateField key)
        else
          let rest ← colon rest
          let (s, rest) ← slot.read s rest
          fieldsByKey slots rounds (key :: seen) s rest

/-- The fields of a record in their order; those that are missing at the end stay as they are. -/
def fieldsInOrder : List (Slot σ) → Bool → σ → List Char → Except JsonFault (σ × List Char)
  | [], _, s, cs => .ok (s, cs)
  | slot :: slots, first, s, cs => do
    match ← nextElement first cs with
    | none => return (s, cs)
    | some cs =>
      let (s, rest) ← slot.read s cs
      fieldsInOrder slots false s rest

def endObject (cs : List Char) : Except JsonFault (List Char) :=
  match skipBlanks cs with
  | '\x7d' :: rest => .ok rest
  | ',' :: _ => malformed .trailingComma
  | [] => unfinished .object
  | _ => malformed .trailingCharacters

/-- A record, as an object or as the list of its values; `init` holds what is not given. -/
def record (expected : String) (slots : List (Slot σ)) (init : σ) : JsonReader σ := fun cs =>
  match skipBlanks cs with
  | '[' :: rest => do
    let (s, rest) ← fieldsInOrder slots true init rest
    let rest ← endList rest
    return (s, rest)
  | '\x7b' :: rest => do
    let (s, rest) ← fieldsByKey slots (rest.length + 1) [] init rest
    let rest ← endObject rest
    return (s, rest)
  | [] => unfinished .value
  | cs => wrongType expected cs

/-- The one key of an object that stands for a word; the brace before it is read. -/
def variantKey : JsonReader String := fun cs =>
  match skipBlanks cs with
  | '"' :: rest => stringBody rest
  | '\x7d' :: _ => malformed .expectedValue
  | [] => unfinished .object
  | _ => malformed .keyMustBeString

/-- One of several words, as a string or as the key of an object that holds `null`. -/
def variant (table : List (String × α)) : JsonReader α := fun cs =>
  let pick (name : String) : Except JsonFault α :=
    match table.lookup name with
    | some a => .ok a
    | none => misfit (.unknownVariant name (table.map Prod.fst))
  match skipBlanks cs with
  | '"' :: rest => do
    let (name, rest) ← stringBody rest
    return (← pick name, rest)
  | '\x7b' :: rest => do
    let (name, rest) ← variantKey rest
    let a ← pick name
    let rest ← colon rest
    let (_, rest) ← null rest
    match skipBlanks rest with
    | '\x7d' :: rest => return (a, rest)
    | [] => unfinished .object
    | _ => malformed .expectedValue
  | [] => unfinished .value
  | _ => malformed .expectedValue

/-- A whole text: one value and nothing but blanks around it. -/
def whole (read : JsonReader α) (text : String) : Except JsonFault α := do
  let (a, rest) ← read text.toList
  if (skipBlanks rest).isEmpty then return a else malformed .trailingCharacters

end JsonReader

end Lockstep
