import DeadLetter.Json

/-!
# JSON as it is written

`Json.stringify` writes a value so that `Json.parse` reads it back, and `utf8Encode` the bytes of a
text, which `utf8Decode` reads back where no surrogate in it is alone. A text that `stringify` has
written has none, whatever strings are in the value: a lone surrogate is escaped.
-/

/-! ## UTF-8 -/

namespace Utf8

def isHigh (u : ℕ) : Bool := 0xD800 ≤ u && u ≤ 0xDBFF

def isLow (u : ℕ) : Bool := 0xDC00 ≤ u && u ≤ 0xDFFF

def isSurrogate (u : ℕ) : Bool := isHigh u || isLow u

/-- The code points of a text. A surrogate that is alone is one of its own. -/
def codePoints : CodeUnits → List ℕ
  | [] => []
  | [u] => [u]
  | u :: v :: s =>
    if isHigh u && isLow v then
      (0x10000 + (u - 0xD800) * 0x400 + (v - 0xDC00)) :: codePoints s
    else u :: codePoints (v :: s)

/-- The bytes of a code point that is no surrogate. -/
def bytes (c : ℕ) : List UInt8 :=
  if c < 0x80 then [.ofNat c]
  else if c < 0x800 then [.ofNat (0xC0 + c / 0x40), .ofNat (0x80 + c % 0x40)]
  else if c < 0x10000 then
    [.ofNat (0xE0 + c / 0x1000), .ofNat (0x80 + c / 0x40 % 0x40), .ofNat (0x80 + c % 0x40)]
  else
    [.ofNat (0xF0 + c / 0x40000), .ofNat (0x80 + c / 0x1000 % 0x40),
      .ofNat (0x80 + c / 0x40 % 0x40), .ofNat (0x80 + c % 0x40)]

end Utf8

/-- `Buffer.from(s)`. -/
def utf8Encode (s : CodeUnits) : List UInt8 :=
  (Utf8.codePoints s).flatMap fun c =>
    Utf8.bytes (if Utf8.isSurrogate c then Utf8.replacement else c)

namespace Utf8

/-- A code point that is no surrogate. -/
def Scalar (c : ℕ) : Prop := c < 0x110000 ∧ isSurrogate c = false

/-- No surrogate is alone. -/
def WellFormed (s : CodeUnits) : Prop := ∃ cs : List ℕ, (∀ c ∈ cs, Scalar c) ∧ cs.flatMap utf16 = s

theorem isSurrogate_iff {c : ℕ} : isSurrogate c = true ↔ 0xD800 ≤ c ∧ c ≤ 0xDFFF := by
  simp only [isSurrogate, isHigh, isLow, Bool.or_eq_true, Bool.and_eq_true, decide_eq_true_eq]
  omega

theorem scalar_iff {c : ℕ} : Scalar c ↔ c < 0xD800 ∨ 0xE000 ≤ c ∧ c < 0x110000 := by
  rw [Scalar, ← Bool.not_eq_true, isSurrogate_iff]
  omega

theorem WellFormed.append {s t : CodeUnits} (hs : WellFormed s) (ht : WellFormed t) :
    WellFormed (s ++ t) := by
  obtain ⟨cs, hcs, rfl⟩ := hs
  obtain ⟨ds, hds, rfl⟩ := ht
  exact ⟨cs ++ ds, List.forall_mem_append.2 ⟨hcs, hds⟩, List.flatMap_append⟩

theorem wellFormed_utf16 {c : ℕ} (h : Scalar c) : WellFormed (utf16 c) :=
  ⟨[c], by simpa using h, by simp⟩

theorem wellFormed_ascii {s : CodeUnits} (h : ∀ c ∈ s, c < 0x80) : WellFormed s := by
  refine ⟨s, fun c hc => scalar_iff.2 (.inl (by have := h c hc; omega)), ?_⟩
  induction s with
  | nil => rfl
  | cons c s ih =>
    obtain ⟨hc, h⟩ := List.forall_mem_cons.1 h
    rw [List.flatMap_cons, ih h, utf16, if_pos (by omega)]
    rfl

theorem wellFormed_flatMap {α : Type*} {f : α → CodeUnits} {l : List α}
    (h : ∀ a ∈ l, WellFormed (f a)) : WellFormed (l.flatMap f) := by
  induction l with
  | nil => exact ⟨[], by simp, rfl⟩
  | cons a l ih =>
    obtain ⟨ha, h⟩ := List.forall_mem_cons.1 h
    rw [List.flatMap_cons]
    exact ha.append (ih h)

/-! ### Code points -/

/-- The code points of a text make it up again. -/
theorem flatMap_codePoints : ∀ {s : CodeUnits}, (∀ u ∈ s, u < 0x10000) →
    (codePoints s).flatMap utf16 = s
  | [], _ => rfl
  | [u], h => by
    have hu := h u List.mem_cons_self
    rw [codePoints, List.flatMap_cons, utf16, if_pos hu]
    rfl
  | u :: v :: s, h => by
    obtain ⟨hu, hv, hs⟩ : u < 0x10000 ∧ v < 0x10000 ∧ ∀ c ∈ s, c < 0x10000 := by simpa using h
    rw [codePoints]
    split_ifs with hp
    · simp only [isHigh, isLow, Bool.and_eq_true, decide_eq_true_eq] at hp
      rw [List.flatMap_cons, flatMap_codePoints hs, utf16, if_neg (by omega)]
      rw [show 0xD800 + (0x10000 + (u - 0xD800) * 0x400 + (v - 0xDC00) - 0x10000) / 0x400 = u by
          omega,
        show 0xDC00 + (0x10000 + (u - 0xD800) * 0x400 + (v - 0xDC00) - 0x10000) % 0x400 = v by
          omega]
      rfl
    · rw [List.flatMap_cons, flatMap_codePoints (List.forall_mem_cons.2 ⟨hv, hs⟩), utf16,
        if_pos hu]
      rfl

theorem lt_of_mem_codePoints : ∀ {s : CodeUnits}, (∀ u ∈ s, u < 0x10000) →
    ∀ c ∈ codePoints s, c < 0x110000
  | [], _, c, hc => by simp [codePoints] at hc
  | [u], h, c, hc => by
    have hu := h u List.mem_cons_self
    obtain rfl : c = u := by simpa [codePoints] using hc
    omega
  | u :: v :: s, h, c, hc => by
    obtain ⟨hu, hv, hs⟩ : u < 0x10000 ∧ v < 0x10000 ∧ ∀ c ∈ s, c < 0x10000 := by simpa using h
    rw [codePoints] at hc
    split_ifs at hc with hp
    · simp only [isHigh, isLow, Bool.and_eq_true, decide_eq_true_eq] at hp
      rcases List.mem_cons.1 hc with hcv | hc
      · omega
      · exact lt_of_mem_codePoints hs c hc
    · rcases List.mem_cons.1 hc with hcu | hc
      · omega
      · exact lt_of_mem_codePoints (List.forall_mem_cons.2 ⟨hv, hs⟩) c hc

theorem codePoints_cons {c : ℕ} (h : isHigh c = false) (s : CodeUnits) :
    codePoints (c :: s) = c :: codePoints s := by
  rcases s with _ | ⟨v, s⟩
  · rfl
  · rw [codePoints, h]
    rfl

theorem codePoints_utf16 {c : ℕ} (h : Scalar c) (s : CodeUnits) :
    codePoints (utf16 c ++ s) = c :: codePoints s := by
  have h := scalar_iff.1 h
  unfold utf16
  split_ifs with hc
  · refine codePoints_cons ?_ s
    simp only [isHigh, Bool.and_eq_false_iff, decide_eq_false_iff_not]
    omega
  · have hp : (isHigh (0xD800 + (c - 0x10000) / 0x400)
        && isLow (0xDC00 + (c - 0x10000) % 0x400)) = true := by
      simp only [isHigh, isLow, Bool.and_eq_true, decide_eq_true_eq]
      omega
    have hv : 0x10000 + (0xD800 + (c - 0x10000) / 0x400 - 0xD800) * 0x400
        + (0xDC00 + (c - 0x10000) % 0x400 - 0xDC00) = c := by
      omega
    rw [List.cons_append, List.cons_append, List.nil_append, codePoints, if_pos hp, hv]

theorem codePoints_flatMap : ∀ {cs : List ℕ}, (∀ c ∈ cs, Scalar c) →
    codePoints (cs.flatMap utf16) = cs
  | [], _ => rfl
  | c :: cs, h => by
    obtain ⟨hc, h⟩ := List.forall_mem_cons.1 h
    rw [List.flatMap_cons, codePoints_utf16 hc, codePoints_flatMap h]

/-! ### Bytes -/

theorem toNat_ofNat {n : ℕ} (h : n < 0x100) : (UInt8.ofNat n).toNat = n := by
  rw [UInt8.toNat_ofNat']
  omega

theorem lead_ascii {c : ℕ} (h : c < 0x80) : lead c = (none, [c]) := by
  rw [lead, if_pos (by omega)]

theorem decode_lead {b : ℕ} {o : Option Sequence} {out : CodeUnits} (hb : b < 0x100)
    (h : lead b = (o, out)) (bs : List UInt8) :
    decode none (.ofNat b :: bs) = out ++ decode o bs := by
  rw [decode, toNat_ofNat hb, h]

theorem decode_last {bits lower upper b : ℕ} (hb : b < 0x100) (hl : lower ≤ b) (hu : b ≤ upper)
    (bs : List UInt8) : decode (some ⟨bits, 1, lower, upper⟩) (.ofNat b :: bs)
      = utf16 (bits * 0x40 + b % 0x40) ++ decode none bs := by
  have hn : next ⟨bits, 1, lower, upper⟩ b = (none, utf16 (bits * 0x40 + b % 0x40)) := by
    simp only [next, hl, hu, and_self, if_true]
  rw [decode, toNat_ofNat hb, hn]

theorem decode_more {bits n lower upper b : ℕ} (hb : b < 0x100) (hl : lower ≤ b) (hu : b ≤ upper)
    (bs : List UInt8) : decode (some ⟨bits, n + 2, lower, upper⟩) (.ofNat b :: bs)
      = decode (some ⟨bits * 0x40 + b % 0x40, n + 1, 0x80, 0xBF⟩) bs := by
  have hn : next ⟨bits, n + 2, lower, upper⟩ b
      = (some ⟨bits * 0x40 + b % 0x40, n + 1, 0x80, 0xBF⟩, []) := by
    simp only [next, hl, hu, and_self, if_true]
    rfl
  rw [decode, toNat_ofNat hb, hn, List.nil_append]

/-- The bytes of a code point are read as it. -/
theorem decode_bytes {c : ℕ} (h : Scalar c) (bs : List UInt8) :
    decode none (bytes c ++ bs) = utf16 c ++ decode none bs := by
  have h := scalar_iff.1 h
  unfold bytes
  split_ifs with h1 h2 h3 <;> simp only [List.cons_append, List.nil_append]
  · rw [decode_lead (by omega) (lead_ascii h1), utf16, if_pos (by omega)]
  · have hl : lead (0xC0 + c / 0x40) = (some ⟨c / 0x40, 1, 0x80, 0xBF⟩, []) := by
      rw [lead, if_neg (by omega), if_pos (by omega)]
      rw [show (0xC0 + c / 0x40) % 0x20 = c / 0x40 by omega]
    have hv : c / 0x40 * 0x40 + (0x80 + c % 0x40) % 0x40 = c := by omega
    rw [decode_lead (by omega) hl, decode_last (by omega) (by omega) (by omega), hv,
      List.nil_append]
  · have hl : lead (0xE0 + c / 0x1000) = (some
        ⟨c / 0x1000, 2, if 0xE0 + c / 0x1000 = 0xE0 then 0xA0 else 0x80,
          if 0xE0 + c / 0x1000 = 0xED then 0x9F else 0xBF⟩, []) := by
      rw [lead, if_neg (by omega), if_neg (by omega), if_pos (by omega)]
      rw [show (0xE0 + c / 0x1000) % 0x10 = c / 0x1000 by omega]
    have hv : (c / 0x1000 * 0x40 + (0x80 + c / 0x40 % 0x40) % 0x40) * 0x40
        + (0x80 + c % 0x40) % 0x40 = c := by omega
    rw [decode_lead (by omega) hl,
      decode_more (by omega) (by split_ifs <;> omega) (by split_ifs <;> omega),
      decode_last (by omega) (by omega) (by omega), hv, List.nil_append]
  · have hl : lead (0xF0 + c / 0x40000) = (some
        ⟨c / 0x40000, 3, if 0xF0 + c / 0x40000 = 0xF0 then 0x90 else 0x80,
          if 0xF0 + c / 0x40000 = 0xF4 then 0x8F else 0xBF⟩, []) := by
      rw [lead, if_neg (by omega), if_neg (by omega), if_neg (by omega), if_pos (by omega)]
      rw [show (0xF0 + c / 0x40000) % 8 = c / 0x40000 by omega]
    have hv : ((c / 0x40000 * 0x40 + (0x80 + c / 0x1000 % 0x40) % 0x40) * 0x40
        + (0x80 + c / 0x40 % 0x40) % 0x40) * 0x40 + (0x80 + c % 0x40) % 0x40 = c := by omega
    rw [decode_lead (by omega) hl,
      decode_more (by omega) (by split_ifs <;> omega) (by split_ifs <;> omega),
      decode_more (by omega) (by omega) (by omega), decode_last (by omega) (by omega) (by omega),
      hv, List.nil_append]

end Utf8

theorem utf8Decode_flatMap : ∀ {cs : List ℕ}, (∀ c ∈ cs, Utf8.Scalar c) →
    utf8Decode (cs.flatMap Utf8.bytes) = cs.flatMap Utf8.utf16
  | [], _ => rfl
  | c :: cs, h => by
    obtain ⟨hc, h⟩ := List.forall_mem_cons.1 h
    have ih := utf8Decode_flatMap h
    unfold utf8Decode at ih ⊢
    rw [List.flatMap_cons, Utf8.decode_bytes hc, ih, List.flatMap_cons]

/-- A text in which no surrogate is alone is read from its bytes. -/
theorem utf8Decode_encode {s : CodeUnits} (h : Utf8.WellFormed s) :
    utf8Decode (utf8Encode s) = s := by
  obtain ⟨cs, hcs, rfl⟩ := h
  unfold utf8Encode
  rw [Utf8.codePoints_flatMap hcs, ← utf8Decode_flatMap hcs]
  congr 1
  refine List.flatMap_congr fun c hc => ?_
  rw [if_neg (by simp [(hcs c hc).2])]

namespace Json

open Transition Utf8

/-! ## Strings -/

def hexChar (d : ℕ) : ℕ := if d < 10 then '0'.toNat + d else 'a'.toNat + (d - 10)

/-- `\u` and four digits. -/
def unicodeEscape (c : ℕ) : CodeUnits :=
  [reverseSolidus, 'u'.toNat, hexChar (c / 0x1000), hexChar (c / 0x100 % 0x10),
    hexChar (c / 0x10 % 0x10), hexChar (c % 0x10)]

/-- A code point as it stands in a string. -/
def quoteChar (c : ℕ) : CodeUnits :=
  if c = 8 then [reverseSolidus, 'b'.toNat]
  else if c = 9 then [reverseSolidus, 't'.toNat]
  else if c = 10 then [reverseSolidus, 'n'.toNat]
  else if c = 12 then [reverseSolidus, 'f'.toNat]
  else if c = 13 then [reverseSolidus, 'r'.toNat]
  else if c = quotationMark then [reverseSolidus, quotationMark]
  else if c = reverseSolidus then [reverseSolidus, reverseSolidus]
  else if c < 0x20 ∨ isSurrogate c then unicodeEscape c
  else utf16 c

def quote (s : CodeUnits) : CodeUnits :=
  quotationMark :: (codePoints s).flatMap quoteChar ++ [quotationMark]

theorem hexChar_lt {d : ℕ} (h : d < 16) : hexChar d < 0x80 := by
  unfold hexChar
  split_ifs
  · show 48 + d < 0x80
    omega
  · show 97 + (d - 10) < 0x80
    omega

theorem hexDigit_hexChar : ∀ d < 16, hexDigit (hexChar d) = some d := by decide

section Reading

variable {isKey : Bool} {stack : List Frame} {s : CodeUnits}

theorem exec_escape {e c : ℕ} (hu : e ≠ 'u'.toNat) (h : unescape e = some c) :
    exec Parser.step { mode := .string isKey s .none, stack } [reverseSolidus, e]
      = some { mode := .string isKey (s ++ [c]) .none, stack } := by
  have hb : Parser.step { mode := .string isKey s .none, stack } reverseSolidus
      = some { mode := .string isKey s .backslash, stack } := rfl
  have he : Parser.step { mode := .string isKey s .backslash, stack } e
      = some { mode := .string isKey (s ++ [c]) .none, stack } := by
    simp only [Parser.step, Parser.inString]
    rw [if_neg hu, h]
    rfl
  exact exec_cons.2 ⟨_, hb, exec_singleton.2 he⟩

theorem step_digit {n v d : ℕ} (hd : d < 16) :
    Parser.step { mode := .string isKey s (.unicode (n + 2) v), stack } (hexChar d)
      = some { mode := .string isKey s (.unicode (n + 1) (v * 16 + d)), stack } := by
  simp only [Parser.step, Parser.inString]
  rw [hexDigit_hexChar d hd]
  rfl

theorem step_lastDigit {v d : ℕ} (hd : d < 16) :
    Parser.step { mode := .string isKey s (.unicode 1 v), stack } (hexChar d)
      = some { mode := .string isKey (s ++ [v * 16 + d]) .none, stack } := by
  simp only [Parser.step, Parser.inString]
  rw [hexDigit_hexChar d hd]
  rfl

theorem exec_unicodeEscape {c : ℕ} (h : c < 0x10000) :
    exec Parser.step { mode := .string isKey s .none, stack } (unicodeEscape c)
      = some { mode := .string isKey (s ++ [c]) .none, stack } := by
  have hv : ((((0 * 16 + c / 0x1000) * 16 + c / 0x100 % 0x10) * 16 + c / 0x10 % 0x10) * 16
      + c % 0x10) = c := by omega
  refine exec_cons.2 ⟨{ mode := .string isKey s .backslash, stack }, rfl, ?_⟩
  refine exec_cons.2 ⟨{ mode := .string isKey s (.unicode 4 0), stack }, rfl, ?_⟩
  refine exec_cons.2 ⟨_, step_digit (by omega), exec_cons.2 ⟨_, step_digit (by omega), ?_⟩⟩
  refine exec_cons.2 ⟨_, step_digit (by omega), exec_singleton.2 ?_⟩
  rw [step_lastDigit (by omega), hv]

/-- A character that stands for itself. -/
theorem step_itself {u : ℕ} (hu : 0x20 ≤ u) (hq : u ≠ quotationMark) (hr : u ≠ reverseSolidus) :
    Parser.step { mode := .string isKey s .none, stack } u
      = some { mode := .string isKey (s ++ [u]) .none, stack } := by
  simp only [Parser.step, Parser.inString]
  rw [if_neg hq, if_neg hr, if_neg (not_lt.2 hu)]

theorem exec_utf16 {c : ℕ} (hc : 0x20 ≤ c) (hq : c ≠ quotationMark) (hr : c ≠ reverseSolidus) :
    exec Parser.step { mode := .string isKey s .none, stack } (utf16 c)
      = some { mode := .string isKey (s ++ utf16 c) .none, stack } := by
  unfold utf16
  split_ifs with h
  · exact exec_singleton.2 (step_itself hc hq hr)
  · have hge : ∀ n, 0x80 ≤ n → n ≠ quotationMark ∧ n ≠ reverseSolidus := fun n hn =>
      ⟨by unfold quotationMark; omega, by unfold reverseSolidus; omega⟩
    obtain ⟨hq₁, hr₁⟩ := hge (0xD800 + (c - 0x10000) / 0x400) (by omega)
    obtain ⟨hq₂, hr₂⟩ := hge (0xDC00 + (c - 0x10000) % 0x400) (by omega)
    refine exec_cons.2 ⟨_, step_itself (by omega) hq₁ hr₁, exec_singleton.2 ?_⟩
    rw [step_itself (by omega) hq₂ hr₂, List.append_assoc]
    rfl

theorem exec_quoteChar (c : ℕ) :
    exec Parser.step { mode := .string isKey s .none, stack } (quoteChar c)
      = some { mode := .string isKey (s ++ utf16 c) .none, stack } := by
  have hself : ∀ {e}, e < 0x80 → utf16 e = [e] := fun h => if_pos (by omega)
  unfold quoteChar
  split_ifs with h1 h2 h3 h4 h5 h6 h7 h8
  · rw [h1]
    exact exec_escape (by decide) rfl
  · rw [h2]
    exact exec_escape (by decide) rfl
  · rw [h3]
    exact exec_escape (by decide) rfl
  · rw [h4]
    exact exec_escape (by decide) rfl
  · rw [h5]
    exact exec_escape (by decide) rfl
  · rw [h6]
    exact exec_escape (by decide) rfl
  · rw [h7]
    exact exec_escape (by decide) rfl
  · have hc : c < 0x10000 := by
      rw [isSurrogate_iff] at h8
      omega
    rw [exec_unicodeEscape hc, utf16, if_pos hc]
  · rw [not_or, not_lt] at h8
    exact exec_utf16 h8.1 h6 h7

theorem exec_quoteChars : ∀ (cs : List ℕ) {s : CodeUnits},
    exec Parser.step { mode := .string isKey s .none, stack } (cs.flatMap quoteChar)
      = some { mode := .string isKey (s ++ cs.flatMap utf16) .none, stack }
  | [], s => by rw [List.flatMap_nil, List.flatMap_nil, List.append_nil]; rfl
  | c :: cs, s => by
    rw [List.flatMap_cons, List.flatMap_cons, ← List.append_assoc]
    exact exec_append.2 ⟨_, exec_quoteChar c, exec_quoteChars cs⟩

/-- A string is read to its end. -/
theorem exec_quote {p : Parser} (hs : ∀ u ∈ s, u < 0x10000)
    (hp : Parser.endString stack isKey s = some p) :
    exec Parser.step { mode := .string isKey [] .none, stack }
      ((codePoints s).flatMap quoteChar ++ [quotationMark]) = some p := by
  refine exec_append.2 ⟨_, exec_quoteChars (codePoints s), exec_singleton.2 ?_⟩
  rw [List.nil_append, flatMap_codePoints hs]
  exact hp

end Reading

/-! ## Values -/

def comma : ℕ := ','.toNat

def colon : ℕ := ':'.toNat

mutual

/-- `JSON.stringify`, of a value that is not `undefined`. -/
def stringify : Json → CodeUnits
  | .null => ascii ['n', 'u', 'l', 'l']
  | .bool true => ascii ['t', 'r', 'u', 'e']
  | .bool false => ascii ['f', 'a', 'l', 's', 'e']
  | .number text => text
  | .string s => quote s
  | .array elements => '['.toNat :: stringifyElements elements ++ [']'.toNat]
  | .object members => '{'.toNat :: stringifyMembers members ++ ['}'.toNat]

def stringifyElements : List Json → CodeUnits
  | [] => []
  | [v] => stringify v
  | v :: w :: vs => stringify v ++ comma :: stringifyElements (w :: vs)

def stringifyMembers : List (CodeUnits × Json) → CodeUnits
  | [] => []
  | [(key, v)] => quote key ++ colon :: stringify v
  | (key, v) :: m :: ms => quote key ++ colon :: stringify v ++ comma :: stringifyMembers (m :: ms)

end

/-- A digit or a minus sign, which a number starts with. -/
def Number.start (c : ℕ) : Option Number :=
  if c = '-'.toNat then some .minus
  else if c = '0'.toNat then some .zero
  else if isDigit c then some .int
  else none

/-- The text of a number. -/
def IsNumber (text : CodeUnits) : Prop :=
  ∃ c rest n m, text = c :: rest ∧ Number.start c = some n ∧ exec Number.next n rest = some m
    ∧ m.accepts = true

mutual

/-- The strings are such, and the numbers. -/
def Valid : Json → Prop
  | .null | .bool _ => True
  | .number text => IsNumber text
  | .string s => ∀ u ∈ s, u < 0x10000
  | .array elements => ValidElements elements
  | .object members => ValidMembers members

def ValidElements : List Json → Prop
  | [] => True
  | v :: vs => Valid v ∧ ValidElements vs

def ValidMembers : List (CodeUnits × Json) → Prop
  | [] => True
  | (key, v) :: ms => (∀ u ∈ key, u < 0x10000) ∧ Valid v ∧ ValidMembers ms

end

/-! ## What is written is read -/

/-- The value has been read, or it is a number that the next character ends. -/
def Ended (stack : List Frame) (v : Json) (p : Parser) : Prop :=
  p = Parser.complete stack v ∨ ∃ n text, Number.accepts n = true ∧ v = .number text
    ∧ p = { mode := .number n text, stack }

/-- A character that comes after an element or a member. -/
def Delimiter (c : ℕ) : Prop := c = comma ∨ c = ']'.toNat ∨ c = '}'.toNat

theorem Delimiter.next {c : ℕ} (h : Delimiter c) (n : Number) : n.next c = none := by
  rcases h with rfl | rfl | rfl <;> revert n <;> intro n <;> rcases n <;> rfl

theorem Ended.step {frame : Frame} {stack : List Frame} {v : Json} {p : Parser} {c : ℕ}
    (h : Ended (frame :: stack) v p) (hc : Delimiter c) :
    Parser.step p c = (Parser.complete (frame :: stack) v).between c := by
  obtain rfl | ⟨n, text, hn, rfl, rfl⟩ := h
  · rcases frame with _ | _ <;> rfl
  · simp only [Parser.step, hc.next n, hn, if_true]

theorem exec_number {n m : Number} {stack : List Frame} : ∀ {text rest : CodeUnits},
    exec Number.next n rest = some m →
      exec Parser.step { mode := .number n text, stack } rest
        = some { mode := .number m (text ++ rest), stack }
  | text, [], h => by
    obtain rfl : n = m := Option.some.inj h
    rw [List.append_nil]
    rfl
  | text, c :: rest, h => by
    obtain ⟨k, hk, hm⟩ := exec_cons.1 h
    have hstep : Parser.step { mode := .number n text, stack } c
        = some { mode := .number k (text ++ [c]), stack } := by
      simp only [Parser.step, hk]
    have : exec Parser.step { mode := .number k (text ++ [c]), stack } rest = _ := exec_number hm
    rw [List.append_assoc] at this
    exact exec_cons.2 ⟨_, hstep, this⟩

/-- A number starts with one of these, and nothing else that is written does. -/
theorem eq_of_start {c : ℕ} {n : Number} (h : Number.start c = some n) :
    c = 45 ∨ c = 48 ∨ c = 49 ∨ c = 50 ∨ c = 51 ∨ c = 52 ∨ c = 53 ∨ c = 54 ∨ c = 55 ∨ c = 56
      ∨ c = 57 := by
  unfold Number.start at h
  split_ifs at h with h1 h2 h3
  · exact .inl h1
  · exact .inr (.inl h2)
  · have hd : 48 ≤ c ∧ c ≤ 57 := by simpa [Number.isDigit] using h3
    omega

theorem step_start {c : ℕ} {n : Number} (h : Number.start c = some n) (orEnd : Bool)
    (stack : List Frame) : Parser.step { mode := .value orEnd, stack } c
      = some { mode := .number n [c], stack } := by
  rcases eq_of_start h with rfl | rfl | rfl | rfl | rfl | rfl | rfl | rfl | rfl | rfl | rfl <;>
    obtain rfl := Option.some.inj h <;> rcases orEnd with _ | _ <;> rfl

/-- The key of a member and its colon. -/
theorem exec_key {key k : CodeUnits} {ms : List (CodeUnits × Json)} {rest : List Frame}
    {orEnd : Bool} (h : ∀ u ∈ key, u < 0x10000) :
    exec Parser.step { mode := .key orEnd, stack := .object ms k :: rest } (quote key ++ [colon])
      = some { mode := .value false, stack := .object ms key :: rest } := by
  refine exec_append.2 ⟨{ mode := .colon, stack := .object ms key :: rest }, ?_, rfl⟩
  refine exec_cons.2 ⟨{ mode := .string true [] .none, stack := .object ms k :: rest }, ?_,
    exec_quote h rfl⟩
  rcases orEnd with _ | _ <;> rfl

mutual

theorem exec_stringify : ∀ {v : Json}, v.Valid → ∀ (orEnd : Bool) (stack : List Frame),
    ∃ p, exec Parser.step { mode := .value orEnd, stack } (stringify v) = some p ∧ Ended stack v p
  | .null, _, orEnd, stack => ⟨_, by rcases orEnd with _ | _ <;> rfl, .inl rfl⟩
  | .bool true, _, orEnd, stack => ⟨_, by rcases orEnd with _ | _ <;> rfl, .inl rfl⟩
  | .bool false, _, orEnd, stack => ⟨_, by rcases orEnd with _ | _ <;> rfl, .inl rfl⟩
  | .number _, hv, orEnd, stack => by
    obtain ⟨c, rest, n, m, rfl, hc, hm, ha⟩ := hv
    exact ⟨_, exec_cons.2 ⟨_, step_start hc orEnd stack, exec_number hm⟩,
      .inr ⟨m, _, ha, rfl, rfl⟩⟩
  | .string s, hv, orEnd, stack => by
    refine ⟨_, exec_cons.2 ⟨{ mode := .string false [] .none, stack }, ?_, exec_quote hv rfl⟩,
      .inl rfl⟩
    rcases orEnd with _ | _ <;> rfl
  | .array [], _, orEnd, stack => ⟨_, by rcases orEnd with _ | _ <;> rfl, .inl rfl⟩
  | .array (v :: vs), hv, orEnd, stack => by
    refine ⟨_, exec_cons.2 ⟨{ mode := .value true, stack := .array [] :: stack }, ?_,
      exec_stringifyElements hv (by simp) true [] stack⟩, .inl rfl⟩
    rcases orEnd with _ | _ <;> rfl
  | .object [], _, orEnd, stack => ⟨_, by rcases orEnd with _ | _ <;> rfl, .inl rfl⟩
  | .object (m :: ms), hv, orEnd, stack => by
    refine ⟨_, exec_cons.2 ⟨{ mode := .key true, stack := .object [] [] :: stack }, ?_,
      exec_stringifyMembers hv (by simp) true [] [] stack⟩, .inl rfl⟩
    rcases orEnd with _ | _ <;> rfl

theorem exec_stringifyElements : ∀ {vs : List Json}, ValidElements vs → vs ≠ [] →
    ∀ (orEnd : Bool) (es : List Json) (rest : List Frame),
      exec Parser.step { mode := .value orEnd, stack := .array es :: rest }
        (stringifyElements vs ++ [']'.toNat]) = some (Parser.complete rest (.array (es ++ vs)))
  | [], _, h, _, _, _ => absurd rfl h
  | [v], hv, _, orEnd, es, rest => by
    obtain ⟨p, hp, he⟩ := exec_stringify hv.1 orEnd (.array es :: rest)
    refine exec_append.2 ⟨p, hp, exec_singleton.2 ?_⟩
    rw [he.step (.inr (.inl rfl))]
    rfl
  | v :: w :: vs, hv, _, orEnd, es, rest => by
    obtain ⟨p, hp, he⟩ := exec_stringify hv.1 orEnd (.array es :: rest)
    have ih := exec_stringifyElements hv.2 (by simp) false (es ++ [v]) rest
    rw [stringifyElements, List.append_assoc, List.cons_append]
    rw [List.append_assoc, List.singleton_append] at ih
    refine exec_append.2 ⟨p, hp, exec_cons.2 ⟨_, ?_, ih⟩⟩
    rw [he.step (.inl rfl)]
    rfl

theorem exec_stringifyMembers : ∀ {ms : List (CodeUnits × Json)}, ValidMembers ms → ms ≠ [] →
    ∀ (orEnd : Bool) (ns : List (CodeUnits × Json)) (k : CodeUnits) (rest : List Frame),
      exec Parser.step { mode := .key orEnd, stack := .object ns k :: rest }
        (stringifyMembers ms ++ ['}'.toNat]) = some (Parser.complete rest (.object (ns ++ ms)))
  | [], _, h, _, _, _, _ => absurd rfl h
  | [(key, v)], hv, _, orEnd, ns, k, rest => by
    obtain ⟨p, hp, he⟩ := exec_stringify hv.2.1 false (.object ns key :: rest)
    rw [stringifyMembers, ← List.singleton_append (l := stringify v), ← List.append_assoc,
      List.append_assoc]
    refine exec_append.2 ⟨_, exec_key hv.1, exec_append.2 ⟨p, hp, exec_singleton.2 ?_⟩⟩
    rw [he.step (.inr (.inr rfl))]
    rfl
  | (key, v) :: m :: ms, hv, _, orEnd, ns, k, rest => by
    obtain ⟨p, hp, he⟩ := exec_stringify hv.2.1 false (.object ns key :: rest)
    have ih := exec_stringifyMembers hv.2.2 (by simp) false (ns ++ [(key, v)]) key rest
    rw [stringifyMembers, ← List.singleton_append (l := stringify v), ← List.append_assoc,
      List.append_assoc, List.append_assoc, List.cons_append]
    rw [List.append_assoc, List.singleton_append] at ih
    refine exec_append.2 ⟨_, exec_key hv.1, exec_append.2 ⟨p, hp, exec_cons.2 ⟨_, ?_, ih⟩⟩⟩
    rw [he.step (.inl rfl)]
    rfl

end

/-- What `stringify` writes `parse` reads. -/
theorem parse_stringify {v : Json} (h : v.Valid) : parse (stringify v) = some v := by
  obtain ⟨p, hp, he⟩ := exec_stringify h false []
  unfold parse
  rw [hp]
  obtain rfl | ⟨n, text, hn, rfl, rfl⟩ := he
  · rfl
  · show (if n.accepts then some (Json.number text) else none) = some (.number text)
    rw [if_pos hn]

/-! ## No surrogate is alone -/

theorem wellFormed_quoteChar {c : ℕ} (h : c < 0x110000) : WellFormed (quoteChar c) := by
  have hpair : ∀ e < 0x80, WellFormed [reverseSolidus, e] := fun e he =>
    wellFormed_ascii (by simpa [reverseSolidus] using he)
  unfold quoteChar
  split_ifs with h1 h2 h3 h4 h5 h6 h7 h8
  · exact hpair _ (by decide)
  · exact hpair _ (by decide)
  · exact hpair _ (by decide)
  · exact hpair _ (by decide)
  · exact hpair _ (by decide)
  · exact hpair _ (by decide)
  · exact hpair _ (by decide)
  · have hc : c < 0x10000 := by
      rw [isSurrogate_iff] at h8
      omega
    refine wellFormed_ascii fun u hu => ?_
    simp only [unicodeEscape, List.mem_cons, List.not_mem_nil, or_false] at hu
    obtain rfl | rfl | rfl | rfl | rfl | rfl := hu
    · decide
    · decide
    · exact hexChar_lt (by omega)
    · exact hexChar_lt (by omega)
    · exact hexChar_lt (by omega)
    · exact hexChar_lt (by omega)
  · rw [not_or, Bool.not_eq_true] at h8
    exact wellFormed_utf16 ⟨h, h8.2⟩

theorem wellFormed_quote {s : CodeUnits} (h : ∀ u ∈ s, u < 0x10000) : WellFormed (quote s) := by
  have hq : WellFormed [quotationMark] := wellFormed_ascii (by decide)
  have hs : WellFormed ((codePoints s).flatMap quoteChar) :=
    wellFormed_flatMap fun c hc => wellFormed_quoteChar (lt_of_mem_codePoints h c hc)
  exact (hq.append hs).append hq

theorem lt_of_next {n m : Number} {c : ℕ} (h : n.next c = some m) : c < 0x80 := by
  by_contra hc
  have hd : Number.isDigit c = false := by
    simp [Number.isDigit]
    omega
  have hE : Number.isE c = false := by
    simp [Number.isE]
    omega
  rcases n <;> simp [Number.next, hd, hE] at h <;> omega

theorem lt_of_exec_next {n m : Number} : ∀ {text : CodeUnits},
    exec Number.next n text = some m → ∀ c ∈ text, c < 0x80
  | [], _, c, hc => by simp at hc
  | d :: text, h, c, hc => by
    obtain ⟨k, hk, hm⟩ := exec_cons.1 h
    rcases List.mem_cons.1 hc with rfl | hc
    · exact lt_of_next hk
    · exact lt_of_exec_next hm c hc

theorem IsNumber.wellFormed {text : CodeUnits} (h : IsNumber text) : WellFormed text := by
  obtain ⟨c, rest, n, m, rfl, hc, hm, -⟩ := h
  have hc : c < 0x80 := by
    have := eq_of_start hc
    omega
  exact wellFormed_ascii (List.forall_mem_cons.2 ⟨hc, lt_of_exec_next hm⟩)

theorem wellFormed_cons {c : ℕ} {s : CodeUnits} (hc : c < 0x80) (hs : WellFormed s) :
    WellFormed (c :: s) :=
  WellFormed.append (s := [c]) (wellFormed_ascii (by simpa using hc)) hs

mutual

theorem wellFormed_stringify : ∀ {v : Json}, v.Valid → WellFormed (stringify v)
  | .null, _ => wellFormed_ascii (by decide)
  | .bool true, _ => wellFormed_ascii (by decide)
  | .bool false, _ => wellFormed_ascii (by decide)
  | .number _, h => h.wellFormed
  | .string _, h => wellFormed_quote h
  | .array _, h => wellFormed_cons (by decide)
    ((wellFormed_stringifyElements h).append (wellFormed_ascii (by decide)))
  | .object _, h => wellFormed_cons (by decide)
    ((wellFormed_stringifyMembers h).append (wellFormed_ascii (by decide)))

theorem wellFormed_stringifyElements : ∀ {vs : List Json}, ValidElements vs →
    WellFormed (stringifyElements vs)
  | [], _ => wellFormed_ascii (by decide)
  | [v], h => wellFormed_stringify h.1
  | v :: w :: vs, h => (wellFormed_stringify h.1).append
    (wellFormed_cons (by decide) (wellFormed_stringifyElements h.2))

theorem wellFormed_stringifyMembers : ∀ {ms : List (CodeUnits × Json)}, ValidMembers ms →
    WellFormed (stringifyMembers ms)
  | [], _ => wellFormed_ascii (by decide)
  | [(key, v)], h => (wellFormed_quote h.1).append
    (wellFormed_cons (by decide) (wellFormed_stringify h.2.1))
  | (key, v) :: m :: ms, h => ((wellFormed_quote h.1).append
      (wellFormed_cons (by decide) (wellFormed_stringify h.2.1))).append
    (wellFormed_cons (by decide) (wellFormed_stringifyMembers h.2.2))

end

/-- The bytes of what `stringify` writes are read back as the value. -/
theorem parse_decode_encode {v : Json} (h : v.Valid) :
    parse (utf8Decode (utf8Encode (stringify v))) = some v := by
  rw [utf8Decode_encode (wellFormed_stringify h), parse_stringify h]

end Json
