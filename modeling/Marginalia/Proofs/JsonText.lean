import Marginalia.Json.Reader
import Marginalia.Json.Writer
import Marginalia.Proofs.Numbered

/-!
# Written JSON text reads back

A value is exact if its numbers are integers that the format keeps as they are
and its objects have their members in the order of the format. The text of an
exact value, on one line or indented, spells that value and no other. The proof
goes through the tokens: the text has the tokens of the value, whatever blanks
stand between them, and the reader takes these tokens back to the value.
-/

namespace Marginalia
namespace Json

open Token

theorem hexValue?_hexDigit : ∀ d, d < 16 → hexValue? (hexDigit d) = some d := by
  decide

/-- An escape by code stands for its unit, unless the unit begins a pair. -/
theorem readString_unit {a b c d : Char} {u : Nat} (h : unit? a b c d = some u)
    (hu : isLeading u = false) (rest : List Char) :
    readString ('\\' :: 'u' :: a :: b :: c :: d :: rest) =
      (readString rest).map fun r => (unitChar u :: r.1, r.2) := by
  by_cases hpair : ∃ e f g k r, rest = '\\' :: 'u' :: e :: f :: g :: k :: r
  · obtain ⟨e, f, g, k, r, rfl⟩ := hpair
    rw [readString]
    cases hv : unit? e f g k with
    | some v => simp [h, hu]
    | none =>
      -- The second escape is malformed, so reading fails with and without the first.
      have hnone : readString ('\\' :: 'u' :: e :: f :: g :: k :: r) = none := by
        by_cases hnext : ∃ e f g k s, r = '\\' :: 'u' :: e :: f :: g :: k :: s
        · obtain ⟨_, _, _, _, _, rfl⟩ := hnext
          rw [readString, hv]
        · rw [readString, hv]
          intro e f g k s hr
          exact hnext ⟨e, f, g, k, s, hr⟩
      rw [hnone, h]
      rfl
  · rw [readString, h]
    intro e f g k r hr
    exact hpair ⟨e, f, g, k, r, hr⟩

theorem unit?_hexDigits {n : Nat} (h : n < 0x20) :
    unit? '0' '0' (hexDigit (n / 16)) (hexDigit (n % 16)) = some n := by
  have hhigh := hexValue?_hexDigit (n / 16) (by omega)
  have hlow := hexValue?_hexDigit (n % 16) (by omega)
  have hzero : hexValue? '0' = some 0 := by decide
  simp only [unit?, hzero, hhigh, hlow, Option.bind_eq_bind, Option.bind_some, Option.pure_def,
    Option.some.injEq]
  omega

theorem unitChar_toNat {c : Char} (h : c.toNat < 0x20) : unitChar c.toNat = c := by
  have hl : isLeading c.toNat = false := by simp [isLeading]; omega
  have ht : isTrailing c.toNat = false := by simp [isTrailing]; omega
  simp [unitChar, hl, ht]

theorem readString_escapeChar (c : Char) (rest : List Char) :
    readString (escapeChar c ++ rest) = (readString rest).map fun r => (c :: r.1, r.2) := by
  unfold escapeChar
  split
  case h_8 =>
    split_ifs with hc
    · have hl : isLeading c.toNat = false := by simp [isLeading]; omega
      have hu := readString_unit (unit?_hexDigits hc) hl rest
      rw [unitChar_toNat hc] at hu
      exact hu
    · rw [List.cons_append, List.nil_append, readString.eq_def]
      split <;> simp_all
  all_goals simp [readString, escaped?]

theorem readString_quote (cs rest : List Char) :
    readString (cs.flatMap escapeChar ++ '"' :: rest) = some (cs, rest) := by
  induction cs with
  | nil => simp [readString]
  | cons c cs ih => rw [List.flatMap_cons, List.append_assoc, readString_escapeChar, ih]; rfl

theorem lex_quote (s : String) (rest : List Char) :
    lex (quote s ++ rest) = (lex rest).map (.str s :: ·) := by
  have h := readString_quote s.toList rest
  rw [quote, List.cons_append, List.append_assoc, List.singleton_append, lex]
  split
  · rename_i hr
    rw [h] at hr
    cases hr
    rw [String.ofList_toList]
  · rename_i hr
    rw [h] at hr
    cases hr

/-- A text that does not go on with a number before it. -/
def Stops (rest : List Char) : Prop :=
  ∀ c ∈ rest.head?, c.isDigit = false ∧ c ≠ '.' ∧ c ≠ 'e' ∧ c ≠ 'E'

theorem stops_nil : Stops [] := by
  intro c hc
  simp at hc

theorem stops_cons {c : Char} (h : c.isDigit = false ∧ c ≠ '.' ∧ c ≠ 'e' ∧ c ≠ 'E')
    (rest : List Char) : Stops (c :: rest) := by
  intro d hd
  obtain rfl : c = d := by simpa using hd
  exact h

theorem takeWhile_digits {ds rest : List Char} (hd : ∀ c ∈ ds, c.isDigit = true) (hr : Stops rest) :
    (ds ++ rest).takeWhile Char.isDigit = ds ∧ (ds ++ rest).dropWhile Char.isDigit = rest := by
  have hrest : rest.takeWhile Char.isDigit = [] ∧ rest.dropWhile Char.isDigit = rest := by
    cases rest with
    | nil => simp
    | cons c r => simp [(hr c (by simp)).1]
  rw [List.takeWhile_append_of_pos hd, List.dropWhile_append_of_pos hd, hrest.1, hrest.2]
  simp

theorem toDigits_eq_cons (n : Nat) :
    ∃ d ds, Nat.toDigits 10 n = d :: ds ∧ d.isDigit = true := by
  obtain ⟨d, ds, hds⟩ := List.exists_cons_of_ne_nil (Nat.toDigits_ne_nil (n := n) (b := 10))
  exact ⟨d, ds, hds, isDigit_of_mem_toDigits (n := n) (by simp [hds])⟩

theorem head?_toDigits {n : Nat} (h : 0 < n) : (Nat.toDigits 10 n).head? ≠ some '0' := by
  induction n using Nat.strong_induction_on with
  | _ n ih =>
    by_cases hn : n < 10
    · rw [Nat.toDigits_of_lt_base hn]
      simp
      omega
    · rw [Nat.toDigits_of_base_le (by decide) (by omega),
        List.head?_append_of_ne_nil _ Nat.toDigits_ne_nil]
      exact ih (n / 10) (by omega) (by omega)

theorem readWhole_toDigits (n : Nat) {rest : List Char} (hr : Stops rest) :
    readWhole (Nat.toDigits 10 n ++ rest) = some (Nat.toDigits 10 n, rest) := by
  rcases Nat.eq_zero_or_pos n with rfl | hn
  · rfl
  · obtain ⟨d, ds, hds, hd⟩ := toDigits_eq_cons n
    have hdigits : ∀ c ∈ ds, c.isDigit = true :=
      fun c hc => isDigit_of_mem_toDigits (n := n) (by simp [hds, hc])
    have hhead := head?_toDigits hn
    rw [hds] at hhead ⊢
    have hz : d ≠ '0' := by simpa using hhead
    obtain ⟨ht, hdrop⟩ := takeWhile_digits hdigits hr
    rw [List.cons_append, readWhole, if_pos hd, ht, hdrop]
    exact fun heq => hz heq

theorem digitsValue_toDigits (n : Nat) : digitsValue (Nat.toDigits 10 n) = n := by
  have h := Nat.ofDigitChars_ten_toDigits (n := n)
  simpa [Nat.ofDigitChars, digitsValue] using h

theorem readFraction_of_stops {rest : List Char} (hr : Stops rest) :
    readFraction rest = some ([], rest) := by
  cases rest with
  | nil => rfl
  | cons c r =>
    rw [readFraction]
    intro r' heq
    exact (hr c (by simp)).2.1 (List.cons.inj heq).1

theorem readExponent_of_stops {rest : List Char} (hr : Stops rest) :
    readExponent rest = some (0, rest) := by
  cases rest with
  | nil => rfl
  | cons c r =>
    obtain ⟨-, -, he, hE⟩ := hr c (by simp)
    simp [readExponent, he, hE]

/-- Integers that the format keeps are read as they are written. -/
theorem ofDecimal_zero {negative : Bool} {n : Nat} (h : n ≤ Number.twoTo 53) :
    Number.ofDecimal negative n 0 = .int (Number.withSign negative n) := by
  by_cases hn : n = 0
  · subst hn
    cases negative <;> rfl
  · have hlen : (Nat.toDigits 10 n).length ≤ 16 := by
      rw [Nat.length_toDigits_le_iff (by decide) (by decide)]
      exact Nat.lt_of_le_of_lt h (by decide)
    have habs : (Number.withSign negative n).natAbs ≤ Number.twoTo 53 := by
      cases negative <;> simpa [Number.withSign] using h
    rw [Number.ofDecimal, if_neg hn]
    dsimp only
    rw [if_neg (by omega), if_neg (by omega), if_pos rfl, Number.ofInt_eq_int habs]

theorem readMagnitude_toDigits {negative : Bool} {n : Nat} (h : n ≤ Number.twoTo 53)
    {rest : List Char} (hr : Stops rest) :
    readMagnitude negative (Nat.toDigits 10 n ++ rest) =
      some (.int (Number.withSign negative n), rest) := by
  simp only [readMagnitude, readWhole_toDigits n hr, readFraction_of_stops hr,
    readExponent_of_stops hr, Option.bind_eq_bind, Option.bind_some, List.append_nil,
    digitsValue_toDigits, List.length_nil]
  exact congrArg (fun x => some (x, rest)) (ofDecimal_zero h)

theorem readNumber_text {n : Int} (h : n.natAbs ≤ Number.twoTo 53) {rest : List Char}
    (hr : Stops rest) : readNumber ((Number.int n).text ++ rest) = some (.int n, rest) := by
  rw [Number.text, if_pos h]
  by_cases hneg : n < 0
  · have hsign : Number.withSign true n.natAbs = n := by
      simp only [Number.withSign, if_true]
      omega
    simp only [hneg, decide_true, Number.signed, if_true, List.cons_append, readNumber]
    rw [readMagnitude_toDigits h hr, hsign]
  · have hsign : Number.withSign false n.natAbs = n := by
      simp only [Number.withSign, Bool.false_eq_true, if_false]
      omega
    simp only [hneg, decide_false, Number.signed, Bool.false_eq_true, if_false]
    rw [readNumber, readMagnitude_toDigits h hr, hsign]
    intro r heq
    obtain ⟨d, ds, hds, hd⟩ := toDigits_eq_cons n.natAbs
    rw [hds, List.cons_append, List.cons.injEq] at heq
    rw [heq.1] at hd
    exact absurd hd (by decide)

theorem lex_number {c : Char} {cs rest : List Char} {x : Number} (hc : c = '-' ∨ c.isDigit = true)
    (h : readNumber (c :: cs) = some (x, rest)) :
    lex (c :: cs) = (lex rest).map (.num x :: ·) := by
  have hs : isSpace c = false := by
    by_contra hs
    simp only [isSpace, Bool.not_eq_false, Bool.or_eq_true, decide_eq_true_eq] at hs
    rcases hs with ((rfl | rfl) | rfl) | rfl <;> simp at hc
  rw [lex, hs]
  · simp only [Bool.false_eq_true, if_false]
    split
    · rename_i hr
      rw [h] at hr
      cases hr
      rfl
    · rename_i hr
      rw [h] at hr
      cases hr
  all_goals
    intros
    subst_vars
    simp at hc

theorem lex_int {n : Int} (h : n.natAbs ≤ Number.twoTo 53) {rest : List Char} (hr : Stops rest) :
    lex (numberText (.int n) ++ rest) = (lex rest).map (.num (.int n) :: ·) := by
  have hread := readNumber_text h hr
  have htext : ∃ c cs, (Number.int n).text = c :: cs ∧ (c = '-' ∨ c.isDigit = true) := by
    obtain ⟨d, ds, hds, hd⟩ := toDigits_eq_cons n.natAbs
    rw [Number.text, if_pos h, Number.signed]
    split_ifs
    · exact ⟨'-', _, rfl, Or.inl rfl⟩
    · exact ⟨d, ds, hds, Or.inr hd⟩
  obtain ⟨c, cs, htext, hc⟩ := htext
  rw [numberText, htext, List.cons_append]
  · rw [htext] at hread
    exact lex_number hc hread
  · simp

mutual

def tokens : Json → List Token
  | .null => [.null]
  | .bool b => [.bool b]
  | .num x => [.num x]
  | .str s => [.str s]
  | .arr [] => [.openBracket, .closeBracket]
  | .arr (v :: vs) => .openBracket :: (tokens v ++ elementTokens vs)
  | .obj [] => [.openBrace, .closeBrace]
  | .obj ((name, v) :: ms) => .openBrace :: .str name :: .colon :: (tokens v ++ memberTokens ms)

/-- The tokens behind an element that others follow, the closing bracket included. -/
def elementTokens : List Json → List Token
  | [] => [.closeBracket]
  | v :: vs => .comma :: (tokens v ++ elementTokens vs)

def memberTokens : List (String × Json) → List Token
  | [] => [.closeBrace]
  | (name, v) :: ms => .comma :: .str name :: .colon :: (tokens v ++ memberTokens ms)

end

/-- A value that the format keeps: its integers are not rounded, and its objects have their
members in order and each name once. -/
inductive Exact : Json → Prop where
  | null : Exact .null
  | bool (b : Bool) : Exact (.bool b)
  | num {n : Int} (h : n.natAbs ≤ Number.twoTo 53) : Exact (.num (.int n))
  | str (s : String) : Exact (.str s)
  | arr {vs : List Json} (h : ∀ v ∈ vs, Exact v) : Exact (.arr vs)
  | obj {ms : Members} (order : Members.ofList ms = ms) (h : ∀ m ∈ ms, Exact m.2) : Exact (.obj ms)

theorem lex_lineBreak (style : Style) (rest : List Char) :
    lex (style.lineBreak ++ rest) = lex rest := by
  have hblanks : ∀ n, lex (List.replicate n ' ' ++ rest) = lex rest := by
    intro n
    induction n with
    | zero => rfl
    | succ n ih =>
      rw [List.replicate_succ, List.cons_append, lex, if_pos (by decide), ih]
      all_goals simp
  cases style with
  | compact => rfl
  | indented depth =>
    rw [Style.lineBreak, List.cons_append, lex, if_pos (by decide), hblanks]
    all_goals simp

theorem lex_colon (style : Style) (rest : List Char) :
    lex (style.colon ++ rest) = (lex rest).map (.colon :: ·) := by
  cases style with
  | compact => rw [Style.colon, List.singleton_append, lex]
  | indented depth =>
    rw [Style.colon, List.cons_append, List.singleton_append, lex, lex, if_pos (by decide)]
    all_goals simp

theorem stops_lineBreak (style : Style) {c : Char}
    (h : c.isDigit = false ∧ c ≠ '.' ∧ c ≠ 'e' ∧ c ≠ 'E') (rest : List Char) :
    Stops (style.lineBreak ++ c :: rest) := by
  cases style with
  | compact => exact stops_cons h rest
  | indented depth => exact stops_cons (by decide) _

/-- The text of a value has its tokens, in every layout and wherever the text stands. -/
def Spells (v : Json) : Prop :=
  ∀ (style : Style) (rest : List Char), Stops rest →
    lex (write style v ++ rest) = (lex rest).map (tokens v ++ ·)

theorem stops_writeElements (inner outer : Style) (vs : List Json) (rest : List Char) :
    Stops (writeElements inner vs ++ (outer.lineBreak ++ ']' :: rest)) := by
  cases vs with
  | nil => exact stops_lineBreak outer (by decide) rest
  | cons v vs => exact stops_cons (by decide) _

theorem lex_writeElements {vs : List Json} (h : ∀ v ∈ vs, Spells v) (inner outer : Style)
    (rest : List Char) :
    lex (writeElements inner vs ++ (outer.lineBreak ++ ']' :: rest)) =
      (lex rest).map (elementTokens vs ++ ·) := by
  induction vs with
  | nil => rw [writeElements, List.nil_append, lex_lineBreak, lex, elementTokens]; rfl
  | cons v vs ih =>
    have hv := h v (by simp) inner _ (stops_writeElements inner outer vs rest)
    rw [writeElements, elementTokens]
    simp only [List.cons_append, List.append_assoc]
    rw [lex, lex_lineBreak, hv, ih fun w hw => h w (List.mem_cons_of_mem v hw)]
    simp [Function.comp_def]

theorem stops_writeMembers (inner outer : Style) (ms : Members) (rest : List Char) :
    Stops (writeMembers inner ms ++ (outer.lineBreak ++ '}' :: rest)) := by
  cases ms with
  | nil => exact stops_lineBreak outer (by decide) rest
  | cons m ms => exact stops_cons (by decide) _

theorem lex_writeMembers {ms : Members} (h : ∀ m ∈ ms, Spells m.2) (inner outer : Style)
    (rest : List Char) :
    lex (writeMembers inner ms ++ (outer.lineBreak ++ '}' :: rest)) =
      (lex rest).map (memberTokens ms ++ ·) := by
  induction ms with
  | nil => rw [writeMembers, List.nil_append, lex_lineBreak, lex, memberTokens]; rfl
  | cons m ms ih =>
    have hm := h m (by simp) inner _ (stops_writeMembers inner outer ms rest)
    rw [writeMembers, memberTokens]
    simp only [List.cons_append, List.append_assoc]
    rw [lex, lex_lineBreak, lex_quote, lex_colon, hm,
      ih fun w hw => h w (List.mem_cons_of_mem m hw)]
    simp [Function.comp_def]

theorem Exact.spells {v : Json} (hv : v.Exact) : Spells v := by
  induction hv with
  | null =>
    intro style rest _
    change lex ('n' :: 'u' :: 'l' :: 'l' :: rest) = _
    rw [lex]
    rfl
  | bool b =>
    intro style rest _
    cases b with
    | false => change lex ('f' :: 'a' :: 'l' :: 's' :: 'e' :: rest) = _; rw [lex]; rfl
    | true => change lex ('t' :: 'r' :: 'u' :: 'e' :: rest) = _; rw [lex]; rfl
  | num h => intro style rest hr; exact lex_int h hr
  | str s => intro style rest _; exact lex_quote s rest
  | @arr vs _ ih =>
    intro style rest _
    cases vs with
    | nil =>
      change lex ('[' :: ']' :: rest) = _
      rw [lex, lex, tokens, Option.map_map]
      rfl
    | cons v vs =>
      have hv := ih v (by simp) style.inner _ (stops_writeElements style.inner style vs rest)
      rw [write, tokens]
      simp only [List.cons_append, List.append_assoc, List.nil_append]
      rw [lex, lex_lineBreak, hv, lex_writeElements fun w hw => ih w (List.mem_cons_of_mem v hw)]
      simp [Function.comp_def]
  | @obj ms _ _ ih =>
    intro style rest _
    cases ms with
    | nil =>
      change lex ('{' :: '}' :: rest) = _
      rw [lex, lex, tokens, Option.map_map]
      rfl
    | cons m ms =>
      have hm := ih m (by simp) style.inner _ (stops_writeMembers style.inner style ms rest)
      rw [write, tokens]
      simp only [List.cons_append, List.append_assoc, List.nil_append]
      rw [lex, lex_lineBreak, lex_quote, lex_colon, hm,
        lex_writeMembers fun w hw => ih w (List.mem_cons_of_mem m hw)]
      simp [Function.comp_def]

theorem tokens_eq_cons (v : Json) : ∃ t ts, tokens v = t :: ts ∧ t ≠ .closeBracket := by
  cases v with
  | arr vs => cases vs <;> simp [tokens]
  | obj ms => rcases ms with _ | ⟨⟨name, v⟩, ms⟩ <;> simp [tokens]
  | _ => simp [tokens]

theorem length_tokens_pos (v : Json) : 0 < (tokens v).length := by
  obtain ⟨t, ts, hts, -⟩ := tokens_eq_cons v
  simp [hts]

/-- Reading the tokens of a value gives the value, whatever stands behind them, if the depth
allowed is not less than twice their number. -/
def Reads (v : Json) : Prop :=
  ∀ (n : Nat) (rest : List Token), 2 * (tokens v).length ≤ n + 1 →
    readValue n (tokens v ++ rest) = some (v, rest)

theorem readElements_tokens {v : Json} {vs : List Json} (h : ∀ w ∈ v :: vs, Reads w) {n : Nat}
    (rest : List Token) (hn : 2 * ((tokens v).length + (elementTokens vs).length) ≤ n) :
    readElements n (tokens v ++ (elementTokens vs ++ rest)) = some (v :: vs, rest) := by
  induction vs generalizing v n with
  | nil =>
    have hpos := length_tokens_pos v
    obtain ⟨n, rfl⟩ := Nat.exists_eq_add_one.mpr (show 0 < n by omega)
    have hv := h v (by simp) n (elementTokens [] ++ rest) (by omega)
    rw [readElements, hv]
    rfl
  | cons w vs ih =>
    simp only [elementTokens, List.length_cons, List.length_append] at hn
    obtain ⟨n, rfl⟩ := Nat.exists_eq_add_one.mpr (show 0 < n by omega)
    have hv := h v (by simp) n (elementTokens (w :: vs) ++ rest) (by omega)
    rw [readElements, hv, elementTokens]
    simp only [List.cons_append, List.append_assoc]
    rw [ih (fun u hu => h u (List.mem_cons_of_mem v hu)) (by omega)]
    rfl

theorem readMembers_tokens {name : String} {v : Json} {ms : Members}
    (h : ∀ m ∈ (name, v) :: ms, Reads m.2) {n : Nat} (rest : List Token)
    (hn : 2 * ((tokens v).length + (memberTokens ms).length) ≤ n) :
    readMembers n (.str name :: .colon :: (tokens v ++ (memberTokens ms ++ rest))) =
      some ((name, v) :: ms, rest) := by
  have hread : Reads v := h (name, v) (by simp)
  induction ms generalizing name v n with
  | nil =>
    have hpos := length_tokens_pos v
    obtain ⟨n, rfl⟩ := Nat.exists_eq_add_one.mpr (show 0 < n by omega)
    have hv := hread n (memberTokens [] ++ rest) (by omega)
    rw [readMembers, hv]
    rfl
  | cons m ms ih =>
    obtain ⟨other, w⟩ := m
    simp only [memberTokens, List.length_cons, List.length_append] at hn
    obtain ⟨n, rfl⟩ := Nat.exists_eq_add_one.mpr (show 0 < n by omega)
    have hv := hread n (memberTokens ((other, w) :: ms) ++ rest) (by omega)
    rw [readMembers, hv, memberTokens]
    simp only [List.cons_append, List.append_assoc]
    rw [ih (fun u hu => h u (List.mem_cons_of_mem _ hu)) (by omega) (h (other, w) (by simp))]
    rfl

theorem reads_of_succ {v : Json}
    (h : ∀ (n : Nat) (rest : List Token), 2 * (tokens v).length ≤ n + 2 →
      readValue (n + 1) (tokens v ++ rest) = some (v, rest)) : Reads v := by
  intro n rest hn
  have hpos := length_tokens_pos v
  obtain ⟨n, rfl⟩ := Nat.exists_eq_add_one.mpr (show 0 < n by omega)
  exact h n rest hn

theorem Exact.reads {v : Json} (hv : v.Exact) : Reads v := by
  induction hv with
  | @arr vs _ ih =>
    refine reads_of_succ fun n rest hn => ?_
    cases vs with
    | nil => rfl
    | cons v vs =>
      obtain ⟨t, ts, hts, hclose⟩ := tokens_eq_cons v
      simp only [tokens, List.length_cons, List.length_append] at hn
      have helements := readElements_tokens ih rest (n := n) (by omega)
      rw [hts, List.cons_append] at helements
      rw [tokens, List.cons_append, List.append_assoc, hts, List.cons_append, readValue, helements]
      · rfl
      · intro r heq
        exact hclose (List.cons.inj heq).1
  | @obj ms order _ ih =>
    refine reads_of_succ fun n rest hn => ?_
    cases ms with
    | nil => rfl
    | cons m ms =>
      obtain ⟨name, v⟩ := m
      simp only [tokens, List.length_cons, List.length_append] at hn
      have hmembers := readMembers_tokens ih rest (n := n) (by omega)
      rw [tokens]
      simp only [List.cons_append, List.append_assoc]
      rw [readValue, hmembers, Option.map_some, order]
      simp
  | _ => exact reads_of_succ fun n rest _ => rfl

/-- The text of an exact value spells that value, in both layouts. -/
theorem Exact.read?_render {v : Json} (hv : v.Exact) (pretty : Bool) :
    read? (render pretty v) = some v := by
  have hlex := hv.spells (if pretty then .indented 0 else .compact) [] stops_nil
  have hread := hv.reads (2 * (tokens v).length + 1) [] (by omega)
  rw [List.append_nil, lex] at hlex
  rw [List.append_nil] at hread
  simp only [read?, render, String.toList_ofList, hlex, Option.map_some, List.append_nil,
    Option.bind_some, ofTokens?, hread]

theorem put_of_notMem {ms : Members} {name : String} (v : Json) (hnew : name ∉ ms.map Prod.fst)
    (hindex : indexOf? name = none) : Members.put ms name v = ms ++ [(name, v)] := by
  have hany : (ms.any fun m => m.1 == name) = false := by
    rw [List.any_eq_false]
    intro m hm heq
    exact hnew (beq_iff_eq.mp heq ▸ List.mem_map_of_mem hm)
  simp [Members.put, hany, Members.insertNew, hindex]

theorem ofList_eq_self {ms : Members} (hnodup : (ms.map Prod.fst).Nodup)
    (hindex : ∀ m ∈ ms, indexOf? m.1 = none) : Members.ofList ms = ms := by
  suffices h : ∀ (rest done : Members), ((done ++ rest).map Prod.fst).Nodup →
      (∀ m ∈ rest, indexOf? m.1 = none) →
      rest.foldl (fun ms p => Members.put ms p.1 p.2) done = done ++ rest by
    exact h ms [] hnodup hindex
  intro rest
  induction rest with
  | nil => simp
  | cons m rest ih =>
    intro done hnodup hindex
    have hnew : m.1 ∉ done.map Prod.fst := by
      rw [List.map_append, List.nodup_append] at hnodup
      intro hmem
      exact hnodup.2.2 m.1 hmem m.1 (by simp) rfl
    rw [List.foldl_cons, put_of_notMem m.2 hnew (hindex m (by simp)), ih]
    · simp
    · simpa using hnodup
    · exact fun n hn => hindex n (List.mem_cons_of_mem m hn)

theorem Exact.of_names {ms : Members} (hnodup : (ms.map Prod.fst).Nodup)
    (hindex : ∀ m ∈ ms, indexOf? m.1 = none) (h : ∀ m ∈ ms, m.2.Exact) : Exact (.obj ms) :=
  .obj (ofList_eq_self hnodup hindex) h

theorem Exact.of_sublist {ms : Members} {names : List String}
    (hnames : (ms.map Prod.fst).Sublist names) (hnodup : names.Nodup)
    (hindex : ∀ name ∈ names, indexOf? name = none) (h : ∀ m ∈ ms, m.2.Exact) : Exact (.obj ms) :=
  .of_names (hnames.nodup hnodup)
    (fun m hm => hindex m.1 (hnames.subset (List.mem_map_of_mem hm))) h

end Json
end Marginalia
