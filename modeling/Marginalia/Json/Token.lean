import Marginalia.Json.Value

/-!
# JSON tokens

The lexical part of the JSON grammar: punctuation, the three literals, strings
with their escapes, and numbers. Blanks between tokens are the space, the tab,
the newline and the carriage return. Texts are sequences of characters, so half
of a surrogate pair, which an escape may spell, has no place in one and is read
as the replacement character.
-/

namespace Marginalia
namespace Json

inductive Token where
  | openBrace
  | closeBrace
  | openBracket
  | closeBracket
  | comma
  | colon
  | null
  | bool (value : Bool)
  | num (value : Number)
  | str (value : String)
deriving Repr, DecidableEq, Inhabited

namespace Token

def isSpace (c : Char) : Bool :=
  c = ' ' || c = '\t' || c = '\n' || c = '\r'

def hexValue? (c : Char) : Option Nat :=
  if '0' ≤ c ∧ c ≤ '9' then some (c.toNat - 48)
  else if 'a' ≤ c ∧ c ≤ 'f' then some (c.toNat - 87)
  else if 'A' ≤ c ∧ c ≤ 'F' then some (c.toNat - 55)
  else none

def unit? (a b c d : Char) : Option Nat := do
  let a ← hexValue? a
  let b ← hexValue? b
  let c ← hexValue? c
  let d ← hexValue? d
  return ((a * 16 + b) * 16 + c) * 16 + d

/-- The character that stands after a backslash for another one. -/
def escaped? : Char → Option Char
  | '"' => some '"'
  | '\\' => some '\\'
  | '/' => some '/'
  | 'b' => some '\x08'
  | 'f' => some '\x0c'
  | 'n' => some '\n'
  | 'r' => some '\r'
  | 't' => some '\t'
  | _ => none

def isLeading (u : Nat) : Bool := decide (0xD800 ≤ u) && decide (u < 0xDC00)

def isTrailing (u : Nat) : Bool := decide (0xDC00 ≤ u) && decide (u < 0xE000)

def pairChar (u v : Nat) : Char :=
  Char.ofNat (0x10000 + (u - 0xD800) * 0x400 + (v - 0xDC00))

/-- The character of a unit that stands alone; half a pair is replaced. -/
def unitChar (u : Nat) : Char :=
  if isLeading u || isTrailing u then '\uFFFD' else Char.ofNat u

/-- Reads the rest of a string after its opening quote: the characters it
denotes, and what follows its closing quote. -/
def readString : List Char → Option (List Char × List Char)
  | [] => none
  | '"' :: rest => some ([], rest)
  | '\\' :: 'u' :: a :: b :: c :: d :: '\\' :: 'u' :: e :: f :: g :: h :: rest =>
    match unit? a b c d, unit? e f g h with
    | some u, some v =>
      if isLeading u && isTrailing v then
        (readString rest).map fun r => (pairChar u v :: r.1, r.2)
      else
        (readString ('\\' :: 'u' :: e :: f :: g :: h :: rest)).map fun r => (unitChar u :: r.1, r.2)
    | _, _ => none
  | '\\' :: 'u' :: a :: b :: c :: d :: rest =>
    match unit? a b c d with
    | some u => (readString rest).map fun r => (unitChar u :: r.1, r.2)
    | none => none
  | '\\' :: c :: rest =>
    match escaped? c with
    | some e => (readString rest).map fun r => (e :: r.1, r.2)
    | none => none
  | c :: rest =>
    if c.toNat < 0x20 || c = '\\' then none
    else (readString rest).map fun r => (c :: r.1, r.2)

theorem length_lt_of_map_cons {c : Char} {read : Option (List Char × List Char)}
    {s rest : List Char} {n m : Nat}
    (hread : ∀ {s rest}, read = some (s, rest) → rest.length < n)
    (h : (read.map fun r => (c :: r.1, r.2)) = some (s, rest)) (hle : n ≤ m) :
    rest.length < m := by
  obtain ⟨⟨s', rest'⟩, hp, he⟩ := Option.map_eq_some_iff.1 h
  obtain ⟨-, rfl⟩ := Prod.mk.inj he
  exact Nat.lt_of_lt_of_le (hread hp) hle

/-- Reading a string uses up a character at least, its closing quote. -/
theorem readString_length {cs s rest : List Char} (h : readString cs = some (s, rest)) :
    rest.length < cs.length := by
  fun_induction readString cs generalizing s rest with
  | case1 => simp at h
  | case2 => simp_all
  | case3 a b c d e f g k r u v hu hv hs ih =>
    exact length_lt_of_map_cons ih h (by simp only [List.length_cons]; omega)
  | case4 a b c d e f g k r u v hu hv hs ih =>
    exact length_lt_of_map_cons ih h (by simp only [List.length_cons]; omega)
  | case5 => simp at h
  | case6 a b c d r hr u hu ih =>
    exact length_lt_of_map_cons ih h (by simp only [List.length_cons]; omega)
  | case7 => simp at h
  | case8 c r _ _ e he' ih =>
    exact length_lt_of_map_cons ih h (by simp only [List.length_cons]; omega)
  | case9 => simp at h
  | case10 => simp at h
  | case11 c r _ _ _ _ hc ih =>
    exact length_lt_of_map_cons ih h (by simp only [List.length_cons]; omega)

/-- The natural number that decimal digits spell. -/
def digitsValue (ds : List Char) : Nat :=
  ds.foldl (fun acc c => 10 * acc + (c.toNat - 48)) 0

/-- The digits of the whole part: a zero alone, or digits that start with another one. -/
def readWhole : List Char → Option (List Char × List Char)
  | '0' :: rest => some (['0'], rest)
  | c :: rest =>
    if c.isDigit then some (c :: rest.takeWhile Char.isDigit, rest.dropWhile Char.isDigit)
    else none
  | [] => none

def readFraction : List Char → Option (List Char × List Char)
  | '.' :: rest =>
    match rest.takeWhile Char.isDigit with
    | [] => none
    | ds => some (ds, rest.dropWhile Char.isDigit)
  | rest => some ([], rest)

def readExponentDigits (negative : Bool) (cs : List Char) : Option (Int × List Char) :=
  match cs.takeWhile Char.isDigit with
  | [] => none
  | ds => some (Number.withSign negative (digitsValue ds), cs.dropWhile Char.isDigit)

/-- The exponent, zero if none is written. -/
def readExponent : List Char → Option (Int × List Char)
  | c :: rest =>
    if c = 'e' || c = 'E' then
      match rest with
      | '-' :: rest => readExponentDigits true rest
      | '+' :: rest => readExponentDigits false rest
      | rest => readExponentDigits false rest
    else some (0, c :: rest)
  | [] => some (0, [])

def readMagnitude (negative : Bool) (cs : List Char) : Option (Number × List Char) := do
  let (whole, rest) ← readWhole cs
  let (fraction, rest) ← readFraction rest
  let (exponent, rest) ← readExponent rest
  return (.ofDecimal negative (digitsValue (whole ++ fraction)) (exponent - fraction.length), rest)

def readNumber : List Char → Option (Number × List Char)
  | '-' :: rest => readMagnitude true rest
  | cs => readMagnitude false cs

theorem length_dropWhile_le (p : Char → Bool) (cs : List Char) :
    (cs.dropWhile p).length ≤ cs.length :=
  (List.dropWhile_sublist p).length_le

theorem readWhole_length {cs ds rest : List Char} (h : readWhole cs = some (ds, rest)) :
    rest.length < cs.length := by
  unfold readWhole at h
  split at h
  · simp_all
  · next c r _ =>
    split at h
    · simp only [Option.some.injEq, Prod.mk.injEq] at h
      have := length_dropWhile_le Char.isDigit r
      simp only [List.length_cons, ← h.2]
      omega
    · simp at h
  · simp at h

theorem readFraction_length {cs ds rest : List Char} (h : readFraction cs = some (ds, rest)) :
    rest.length ≤ cs.length := by
  unfold readFraction at h
  split at h
  · next r =>
    split at h
    · simp at h
    · simp only [Option.some.injEq, Prod.mk.injEq] at h
      have := length_dropWhile_le Char.isDigit r
      simp only [List.length_cons, ← h.2]
      omega
  · simp_all

theorem readExponentDigits_length {neg : Bool} {cs rest : List Char} {e : Int}
    (h : readExponentDigits neg cs = some (e, rest)) : rest.length ≤ cs.length := by
  unfold readExponentDigits at h
  split at h
  · simp at h
  · simp only [Option.some.injEq, Prod.mk.injEq] at h
    exact h.2 ▸ length_dropWhile_le _ _

theorem readExponent_length {cs rest : List Char} {e : Int}
    (h : readExponent cs = some (e, rest)) : rest.length ≤ cs.length := by
  unfold readExponent at h
  split at h
  · split at h
    · split at h <;>
        · have := readExponentDigits_length h
          simp only [List.length_cons] at *
          omega
    · simp_all
  · simp_all

theorem readMagnitude_length {neg : Bool} {cs rest : List Char} {x : Number}
    (h : readMagnitude neg cs = some (x, rest)) : rest.length < cs.length := by
  simp only [readMagnitude, Option.bind_eq_bind, Option.bind_eq_some_iff, Prod.exists] at h
  obtain ⟨ds, r₁, h₁, fs, r₂, h₂, e, r₃, h₃, h₄⟩ := h
  have := readWhole_length h₁
  have := readFraction_length h₂
  have := readExponent_length h₃
  simp only [Option.pure_def, Option.some.injEq, Prod.mk.injEq] at h₄
  rw [← h₄.2]
  omega

theorem readNumber_length {cs rest : List Char} {x : Number}
    (h : readNumber cs = some (x, rest)) : rest.length < cs.length := by
  unfold readNumber at h
  split at h
  · have := readMagnitude_length h
    simp only [List.length_cons]
    omega
  · exact readMagnitude_length h

/-- The tokens of a text; `none` if some part of it is no token. -/
def lex (cs : List Char) : Option (List Token) :=
  match cs with
  | [] => some []
  | '{' :: rest => (lex rest).map (.openBrace :: ·)
  | '}' :: rest => (lex rest).map (.closeBrace :: ·)
  | '[' :: rest => (lex rest).map (.openBracket :: ·)
  | ']' :: rest => (lex rest).map (.closeBracket :: ·)
  | ',' :: rest => (lex rest).map (.comma :: ·)
  | ':' :: rest => (lex rest).map (.colon :: ·)
  | 'n' :: 'u' :: 'l' :: 'l' :: rest => (lex rest).map (.null :: ·)
  | 't' :: 'r' :: 'u' :: 'e' :: rest => (lex rest).map (.bool true :: ·)
  | 'f' :: 'a' :: 'l' :: 's' :: 'e' :: rest => (lex rest).map (.bool false :: ·)
  | '"' :: rest =>
    match h : readString rest with
    | some (s, after) =>
      have := readString_length h
      (lex after).map (.str (String.ofList s) :: ·)
    | none => none
  | c :: rest =>
    if isSpace c then lex rest
    else
      match h : readNumber (c :: rest) with
      | some (x, after) =>
        have : after.length < rest.length + 1 := readNumber_length h
        (lex after).map (.num x :: ·)
      | none => none
termination_by cs.length

end Token
end Json
end Marginalia
