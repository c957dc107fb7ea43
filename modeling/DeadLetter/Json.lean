import Mathlib.Data.Nat.Notation
import DeadLetter.Transition

/-!
# Text and JSON

A string is a list of UTF-16 code units. `utf8Decode` reads bytes as such, each maximal part of an
ill-formed sequence as one U+FFFD. `Json.parse` is a machine that takes a text one code unit at a
time, with a stack of the arrays and objects that are open; a number is kept as its text.
-/

abbrev CodeUnits := List ℕ

/-- The code units of some ASCII characters. -/
def ascii (cs : List Char) : CodeUnits := cs.map Char.toNat

/-! ## UTF-8 -/

namespace Utf8

/-- Within a sequence: the bits so far, the bytes to come, and what the next may be. -/
structure Sequence where
  bits : ℕ
  needed : ℕ
  lower : ℕ := 0x80
  upper : ℕ := 0xBF
  deriving DecidableEq, Repr

def replacement : ℕ := 0xFFFD

def utf16 (codePoint : ℕ) : CodeUnits :=
  if codePoint < 0x10000 then [codePoint]
  else [0xD800 + (codePoint - 0x10000) / 0x400, 0xDC00 + (codePoint - 0x10000) % 0x400]

/-- A byte that starts a sequence, or stands for itself. -/
def lead (b : ℕ) : Option Sequence × CodeUnits :=
  if b ≤ 0x7F then (none, [b])
  else if 0xC2 ≤ b ∧ b ≤ 0xDF then (some { bits := b % 0x20, needed := 1 }, [])
  else if 0xE0 ≤ b ∧ b ≤ 0xEF then
    (some { bits := b % 0x10
            needed := 2
            lower := if b = 0xE0 then 0xA0 else 0x80
            upper := if b = 0xED then 0x9F else 0xBF }, [])
  else if 0xF0 ≤ b ∧ b ≤ 0xF4 then
    (some { bits := b % 8
            needed := 3
            lower := if b = 0xF0 then 0x90 else 0x80
            upper := if b = 0xF4 then 0x8F else 0xBF }, [])
  else (none, [replacement])

def next (p : Sequence) (b : ℕ) : Option Sequence × CodeUnits :=
  if p.lower ≤ b ∧ b ≤ p.upper then
    let bits := p.bits * 0x40 + b % 0x40
    if p.needed = 1 then (none, utf16 bits)
    else (some { bits, needed := p.needed - 1 }, [])
  -- the byte starts another sequence
  else (lead b).map id (replacement :: ·)

def decode : Option Sequence → List UInt8 → CodeUnits
  | none, [] => []
  | some _, [] => [replacement]
  | none, b :: bs => (lead b.toNat).2 ++ decode (lead b.toNat).1 bs
  | some p, b :: bs => (next p b.toNat).2 ++ decode (next p b.toNat).1 bs

end Utf8

/-- `Buffer.toString()`. -/
def utf8Decode (bytes : List UInt8) : CodeUnits := Utf8.decode none bytes

/-! ## JSON -/

inductive Json
  | null
  | bool (b : Bool)
  | number (text : CodeUnits)
  | string (s : CodeUnits)
  | array (elements : List Json)
  | object (members : List (CodeUnits × Json))

namespace Json

open Transition

/-- A property's value. Of members with one key the last counts; what is no object has none. -/
def get : Json → CodeUnits → Option Json
  | .object members, key => (members.reverse.find? (·.1 = key)).map (·.2)
  | _, _ => none

/-- What of a number was read last. -/
inductive Number
  | minus | zero | int | point | frac | e | sign | exp
  deriving DecidableEq, Repr

namespace Number

def accepts : Number → Bool
  | .zero | .int | .frac | .exp => true
  | _ => false

def isDigit (c : ℕ) : Bool := '0'.toNat ≤ c && c ≤ '9'.toNat

def isE (c : ℕ) : Bool := c = 'e'.toNat || c = 'E'.toNat

def next (n : Number) (c : ℕ) : Option Number :=
  match n with
  | .minus => if c = '0'.toNat then some .zero else if isDigit c then some .int else none
  | .zero => if c = '.'.toNat then some .point else if isE c then some .e else none
  | .int =>
    if isDigit c then some .int
    else if c = '.'.toNat then some .point
    else if isE c then some .e
    else none
  | .point => if isDigit c then some .frac else none
  | .frac => if isDigit c then some .frac else if isE c then some .e else none
  | .e =>
    if c = '+'.toNat ∨ c = '-'.toNat then some .sign
    else if isDigit c then some .exp
    else none
  | .sign | .exp => if isDigit c then some .exp else none

end Number

/-- In a string: between characters, after a backslash, or with digits of a `\u` to come. -/
inductive Escape
  | none
  | backslash
  | unicode (digits value : ℕ)
  deriving DecidableEq, Repr

/-- An array or object that is open; an object has the key of its last member. -/
inductive Frame
  | array (elements : List Json)
  | object (members : List (CodeUnits × Json)) (key : CodeUnits)

/-- What comes next. -/
inductive Mode
  | value (orEnd : Bool)
  | key (orEnd : Bool)
  | colon
  | commaOrEnd
  | string (isKey : Bool) (s : CodeUnits) (escape : Escape)
  | number (n : Number) (text : CodeUnits)
  | literal (rest : CodeUnits) (v : Json)
  | done (v : Json)

structure Parser where
  mode : Mode := .value false
  stack : List Frame := []

def quotationMark : ℕ := 0x22

def reverseSolidus : ℕ := 0x5C

def isSpace (c : ℕ) : Bool :=
  c = ' '.toNat || c = '\t'.toNat || c = '\n'.toNat || c = '\r'.toNat

def hexDigit (c : ℕ) : Option ℕ :=
  if Number.isDigit c then some (c - '0'.toNat)
  else if 'a'.toNat ≤ c ∧ c ≤ 'f'.toNat then some (c - 'a'.toNat + 10)
  else if 'A'.toNat ≤ c ∧ c ≤ 'F'.toNat then some (c - 'A'.toNat + 10)
  else none

/-- The character that a backslash and `c` stand for. -/
def unescape (c : ℕ) : Option ℕ :=
  if c = quotationMark ∨ c = reverseSolidus ∨ c = '/'.toNat then some c
  else if c = 'b'.toNat then some 8
  else if c = 'f'.toNat then some 12
  else if c = 'n'.toNat then some 10
  else if c = 'r'.toNat then some 13
  else if c = 't'.toNat then some 9
  else none

namespace Parser

/-- A value has ended: it goes into what is open around it. -/
def complete (stack : List Frame) (v : Json) : Parser :=
  match stack with
  | [] => { mode := .done v }
  | .array elements :: rest =>
    { mode := .commaOrEnd, stack := .array (elements ++ [v]) :: rest }
  | .object members key :: rest =>
    { mode := .commaOrEnd, stack := .object (members ++ [(key, v)]) key :: rest }

/-- The first character of a value. -/
def startValue (stack : List Frame) (c : ℕ) : Option Parser :=
  if c = quotationMark then some { mode := .string false [] .none, stack }
  else if c = '['.toNat then some { mode := .value true, stack := .array [] :: stack }
  else if c = '{'.toNat then some { mode := .key true, stack := .object [] [] :: stack }
  else if c = 't'.toNat then some { mode := .literal (ascii ['r', 'u', 'e']) (.bool true), stack }
  else if c = 'f'.toNat then
    some { mode := .literal (ascii ['a', 'l', 's', 'e']) (.bool false), stack }
  else if c = 'n'.toNat then some { mode := .literal (ascii ['u', 'l', 'l']) .null, stack }
  else if c = '-'.toNat then some { mode := .number .minus [c], stack }
  else if c = '0'.toNat then some { mode := .number .zero [c], stack }
  else if Number.isDigit c then some { mode := .number .int [c], stack }
  else none

/-- The end of what is open, if `c` ends it. -/
def close (stack : List Frame) (c : ℕ) : Option Parser :=
  match stack with
  | .array elements :: rest =>
    if c = ']'.toNat then some (complete rest (.array elements)) else none
  | .object members _ :: rest =>
    if c = '}'.toNat then some (complete rest (.object members)) else none
  | [] => none

/-- A character between the tokens, or the first one of the next. -/
def between (p : Parser) (c : ℕ) : Option Parser :=
  if isSpace c then some p
  else match p.mode with
  | .value orEnd =>
    if orEnd ∧ c = ']'.toNat then close p.stack c else startValue p.stack c
  | .key orEnd =>
    if c = quotationMark then some { p with mode := .string true [] .none }
    else if orEnd then close p.stack c
    else none
  | .colon => if c = ':'.toNat then some { p with mode := .value false } else none
  | .commaOrEnd =>
    if c = ','.toNat then
      match p.stack with
      | .array _ :: _ => some { p with mode := .value false }
      | .object _ _ :: _ => some { p with mode := .key false }
      | [] => none
    else close p.stack c
  | _ => none

/-- A string has ended: a value, or the key of a member. -/
def endString (stack : List Frame) (isKey : Bool) (s : CodeUnits) : Option Parser :=
  match isKey, stack with
  | false, _ => some (complete stack (.string s))
  | true, .object members _ :: rest => some { mode := .colon, stack := .object members s :: rest }
  | true, _ => none

def inString (p : Parser) (isKey : Bool) (s : CodeUnits) (escape : Escape) (c : ℕ) :
    Option Parser :=
  match escape with
  | .none =>
    if c = quotationMark then endString p.stack isKey s
    else if c = reverseSolidus then some { p with mode := .string isKey s .backslash }
    else if c < 0x20 then none
    else some { p with mode := .string isKey (s ++ [c]) .none }
  | .backslash =>
    if c = 'u'.toNat then some { p with mode := .string isKey s (.unicode 4 0) }
    else (unescape c).map fun u => { p with mode := .string isKey (s ++ [u]) .none }
  | .unicode digits value => (hexDigit c).map fun d =>
    if digits = 1 then { p with mode := .string isKey (s ++ [value * 16 + d]) .none }
    else { p with mode := .string isKey s (.unicode (digits - 1) (value * 16 + d)) }

def step (p : Parser) (c : ℕ) : Option Parser :=
  match p.mode with
  | .string isKey s escape => p.inString isKey s escape c
  | .number n text =>
    match n.next c with
    | some n => some { p with mode := .number n (text ++ [c]) }
    -- the character is the first one after the number
    | none => if n.accepts then (complete p.stack (.number text)).between c else none
  | .literal (d :: rest) v =>
    if c ≠ d then none
    else if rest = [] then some (complete p.stack v)
    else some { p with mode := .literal rest v }
  | _ => p.between c

def finish (p : Parser) : Option Json :=
  match p.mode, p.stack with
  | .done v, _ => some v
  | .number n text, [] => if n.accepts then some (.number text) else none
  | _, _ => none

end Parser

/-- `JSON.parse`, `none` where it throws. -/
def parse (text : CodeUnits) : Option Json := (exec Parser.step {} text).bind Parser.finish

end Json
