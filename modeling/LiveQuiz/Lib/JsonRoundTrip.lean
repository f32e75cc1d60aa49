import LiveQuiz.Lib.Json
import Mathlib.Data.List.TakeWhile
import Mathlib.Tactic.IntervalCases

/-! # What is written is read back

Each reader is run on what its writer wrote, followed by any text that may stand there: the
rest is left over. The values are those whose keys differ and whose floats read as floats.
-/

namespace Json

set_option autoImplicit false

theorem backslash_ne : backslash ≠ quoteMark := by decide

theorem hexValue_digitChar {n : Nat} (h : n < 16) : hexValue n.digitChar = some n := by
  interval_cases n <;> decide

theorem hexUnit_digits {n : Nat} (h : n < 65536) :
    hexUnit (n / 4096 % 16).digitChar (n / 256 % 16).digitChar (n / 16 % 16).digitChar
      (n % 16).digitChar = some n := by
  have hSum : 4096 * (n / 4096 % 16) + 256 * (n / 256 % 16) + 16 * (n / 16 % 16) + n % 16 = n := by
    omega
  have hDigit (k : Nat) : hexValue (k % 16).digitChar = some (k % 16) :=
    hexValue_digitChar (Nat.mod_lt k (by omega))
  simp [hexUnit, hDigit, hSum]

def push (ns : List Nat) (r : List Nat × List Char) : List Nat × List Char := (ns ++ r.1, r.2)

theorem readUnits_quoteMark (cs : List Char) : readUnits (quoteMark :: cs) = some ([], cs) := by
  rw [readUnits.eq_def]
  rfl

theorem readUnits_letter {e : Char} {n : Nat} (h : letterCode e = some n) (cs : List Char) :
    readUnits (backslash :: e :: cs) = (readUnits cs).map (push [n]) := by
  rw [readUnits.eq_def]
  simp only [if_neg backslash_ne, h, if_true]
  rfl

theorem readUnits_hex {a b c d : Char} {n : Nat} (h : hexUnit a b c d = some n) (cs : List Char) :
    readUnits (backslash :: 'u' :: a :: b :: c :: d :: cs) = (readUnits cs).map (push [n]) := by
  have hLetter : letterCode 'u' = none := by decide
  rw [readUnits.eq_def]
  simp only [if_neg backslash_ne, hLetter, if_true, h]
  rfl

theorem readUnits_plain {c : Char} (hMark : c ≠ quoteMark) (hSlash : c ≠ backslash)
    (hControl : ¬c.toNat < 32) (cs : List Char) :
    readUnits (c :: cs) = (readUnits cs).map (push [c.toNat]) := by
  rw [readUnits.eq_def]
  simp only [if_neg hMark, if_neg hSlash, if_neg hControl]
  rfl

theorem readUnits_unicodeEscape {n : Nat} (h : n < 65536) (cs : List Char) :
    readUnits (unicodeEscape n ++ cs) = (readUnits cs).map (push [n]) :=
  readUnits_hex (hexUnit_digits h) cs

theorem readUnits_unicodeEscapes (ns : List Nat) (h : ∀ n ∈ ns, n < 65536) (cs : List Char) :
    readUnits (ns.flatMap unicodeEscape ++ cs) = (readUnits cs).map (push ns) := by
  induction ns with
  | nil => cases hRead : readUnits cs <;> simp [hRead, push]
  | cons n ns ih =>
    rw [List.flatMap_cons, List.append_assoc, readUnits_unicodeEscape (h n (by simp)),
      ih fun m hm => h m (by simp [hm])]
    cases readUnits cs <;> simp [push]

theorem toNat_valid (c : Char) : c.toNat < 0xd800 ∨ 0xdfff < c.toNat ∧ c.toNat < 0x110000 := c.valid

theorem codeUnits_lt {c : Char} {n : Nat} (h : n ∈ codeUnits c) : n < 65536 := by
  have hValid := toNat_valid c
  unfold codeUnits at h
  split at h
  case isTrue hSmall => simp_all
  case isFalse hLarge =>
    simp only [List.mem_cons, List.not_mem_nil, or_false] at h
    omega

theorem letterCode_letterOf {n : Nat} {e : Char} (h : letterOf n = some e) : letterCode e = some n := by
  unfold letterOf at h
  split_ifs at h <;> cases h <;> subst n <;> decide

theorem letterOf_lt {n : Nat} {e : Char} (h : letterOf n = some e) : n < 0x10000 := by
  unfold letterOf at h
  split_ifs at h <;> omega

theorem codeUnits_small {c : Char} (h : c.toNat < 0x10000) : codeUnits c = [c.toNat] := if_pos h

theorem readUnits_escapeChar (c : Char) (cs : List Char) :
    readUnits (escapeChar c ++ cs) = (readUnits cs).map (push (codeUnits c)) := by
  cases hLetter : letterOf c.toNat with
  | some e =>
    rw [codeUnits_small (letterOf_lt hLetter), ← readUnits_letter (letterCode_letterOf hLetter)]
    simp [escapeChar, hLetter]
  | none =>
    by_cases hPlain : 32 ≤ c.toNat ∧ c.toNat ≤ 126
    · have hMark : c ≠ quoteMark := by
        rintro rfl
        revert hLetter
        decide
      have hSlash : c ≠ backslash := by
        rintro rfl
        revert hLetter
        decide
      rw [codeUnits_small (by omega), ← readUnits_plain hMark hSlash (Nat.not_lt.mpr hPlain.1)]
      simp [escapeChar, hLetter, hPlain]
    · simp only [escapeChar, hLetter, if_neg hPlain]
      exact readUnits_unicodeEscapes (codeUnits c) (fun n => codeUnits_lt) cs

theorem readUnits_escaped (s : List Char) (rest : List Char) :
    readUnits (s.flatMap escapeChar ++ quoteMark :: rest) = some (s.flatMap codeUnits, rest) := by
  induction s with
  | nil => exact readUnits_quoteMark rest
  | cons c s ih =>
    rw [List.flatMap_cons, List.append_assoc, readUnits_escapeChar, ih]
    simp [push]

theorem joinUnits_codeUnits (c : Char) (ns : List Nat) :
    joinUnits (codeUnits c ++ ns) = (joinUnits ns).map (c :: ·) := by
  have hValid := toNat_valid c
  by_cases hSmall : c.toNat < 0x10000
  · have hHigh : isHigh c.toNat = false := by simp [isHigh]; omega
    have hLow : isLow c.toNat = false := by simp [isLow]; omega
    rw [codeUnits_small hSmall, List.singleton_append, joinUnits.eq_def]
    simp [hHigh, hLow]
  · have hHigh : isHigh (0xd800 + (c.toNat - 0x10000) / 0x400) = true := by simp [isHigh]; omega
    have hLow : isLow (0xdc00 + (c.toNat - 0x10000) % 0x400) = true := by simp [isLow]; omega
    have hJoin : 0x10000 + (0xd800 + (c.toNat - 0x10000) / 0x400 - 0xd800) * 0x400 +
        (0xdc00 + (c.toNat - 0x10000) % 0x400 - 0xdc00) = c.toNat := by omega
    simp only [codeUnits, if_neg hSmall, List.cons_append, List.nil_append, joinUnits, hHigh, hLow,
      if_true, hJoin, Char.ofNat_toNat]

theorem joinUnits_flatMap (s : List Char) : joinUnits (s.flatMap codeUnits) = some s := by
  induction s with
  | nil => rfl
  | cons c s ih => rw [List.flatMap_cons, joinUnits_codeUnits, ih, Option.map_some]

theorem readString_quote (s : String) (rest : List Char) :
    readString (s.toList.flatMap escapeChar ++ quoteMark :: rest) = some (s, rest) := by
  simp [readString, readUnits_escaped, joinUnits_flatMap]

/-- What may follow a value: nothing, a comma, or a closing bracket. -/
def Stop : List Char → Prop
  | [] => True
  | c :: _ => c = ',' ∨ c = ']' ∨ c = Char.ofNat 125

theorem Stop.head {p : Char → Bool} {c : Char} {cs : List Char} (h : Stop (c :: cs))
    (hComma : p ',' = false) (hBracket : p ']' = false) (hBrace : p (Char.ofNat 125) = false) :
    p c = false := by
  rcases h with rfl | rfl | rfl <;> assumption

theorem Stop.takeWhile {rest : List Char} (h : Stop rest) (cs : List Char) :
    (cs ++ rest).takeWhile Char.isDigit = cs.takeWhile Char.isDigit ∧
      (cs ++ rest).dropWhile Char.isDigit = cs.dropWhile Char.isDigit ++ rest := by
  induction cs with
  | nil =>
    cases rest with
    | nil => simp
    | cons c rest =>
      have hDigit : c.isDigit = false := h.head (by decide) (by decide) (by decide)
      simp [hDigit]
  | cons c cs ih =>
    cases hDigit : c.isDigit
    · simp [hDigit]
    · simpa [hDigit] using ih

theorem readNat_append {cs rest : List Char} {r : List Char × List Char} (h : readNat cs = some r)
    (hStop : Stop rest) : readNat (cs ++ rest) = some (r.1, r.2 ++ rest) := by
  cases cs with
  | nil => cases h
  | cons c cs =>
    obtain ⟨hTake, hDrop⟩ := hStop.takeWhile cs
    rw [readNat] at h
    rw [List.cons_append, readNat, hTake, hDrop]
    split_ifs at h ⊢ <;> cases h <;> rfl

theorem readFraction_append {rest : List Char} (h : Stop rest) (cs : List Char) :
    readFraction (cs ++ rest) = ((readFraction cs).1, (readFraction cs).2 ++ rest) := by
  cases cs with
  | nil =>
    cases rest with
    | nil => rfl
    | cons c rest =>
      have hPoint := h.head (p := fun c => c = '.') (by decide) (by decide) (by decide)
      simp [readFraction, of_decide_eq_false hPoint]
  | cons c cs =>
    obtain ⟨hTake, hDrop⟩ := h.takeWhile cs
    rw [List.cons_append, readFraction, readFraction, hTake, hDrop]
    split_ifs <;> rfl

theorem signOf_append {rest : List Char} (h : Stop rest) (cs : List Char) :
    signOf (cs ++ rest) = signOf cs := by
  cases cs with
  | nil =>
    cases rest with
    | nil => rfl
    | cons c rest =>
      have hSign : isSign c = false := h.head (by decide) (by decide) (by decide)
      simp [signOf, hSign]
  | cons c cs => rfl

theorem signOf_length (cs : List Char) : (signOf cs).length ≤ cs.length := by
  cases cs with
  | nil => simp [signOf]
  | cons c cs =>
    rw [signOf]
    split_ifs <;> simp

theorem readExponent_append {rest : List Char} (h : Stop rest) (cs : List Char) :
    readExponent (cs ++ rest) = ((readExponent cs).1, (readExponent cs).2 ++ rest) := by
  cases cs with
  | nil =>
    cases rest with
    | nil => rfl
    | cons c rest =>
      have hLower := h.head (p := fun c => c = 'e') (by decide) (by decide) (by decide)
      have hUpper := h.head (p := fun c => c = 'E') (by decide) (by decide) (by decide)
      simp [readExponent, of_decide_eq_false hLower, of_decide_eq_false hUpper]
  | cons c cs =>
    obtain ⟨hTake, hDrop⟩ := h.takeWhile (cs.drop (signOf cs).length)
    rw [List.cons_append, readExponent, readExponent]
    simp only [signOf_append h, List.drop_append_of_le_length (signOf_length cs), hTake, hDrop]
    split_ifs <;> rfl

section

variable {float : String → Value}

theorem readUnsigned_append {negative : Bool} {cs rest : List Char} {r : Value × List Char}
    (h : readUnsigned float negative cs = some r) (hStop : Stop rest) :
    readUnsigned float negative (cs ++ rest) = some (r.1, r.2 ++ rest) := by
  obtain ⟨ds, hNat, rfl⟩ := Option.map_eq_some_iff.mp h
  rw [readUnsigned, readNat_append hNat hStop]
  simp only [Option.map_some, readFraction_append hStop, readExponent_append hStop]
  split_ifs <;> rfl

theorem readNumber_append {cs rest : List Char} {r : Value × List Char}
    (h : readNumber float cs = some r) (hStop : Stop rest) :
    readNumber float (cs ++ rest) = some (r.1, r.2 ++ rest) := by
  cases cs with
  | nil => cases h
  | cons c cs =>
    rw [readNumber] at h
    rw [List.cons_append, readNumber]
    split_ifs at h ⊢
    · exact readUnsigned_append h hStop
    · exact readUnsigned_append h hStop

theorem readNumber_head {cs : List Char} {r : Value × List Char} (h : readNumber float cs = some r) :
    ∃ c t, cs = c :: t ∧ (c.isDigit ∨ c = '-' ∧ ∃ d u, t = d :: u ∧ d.isDigit) := by
  have hNat : ∀ cs r, readNat cs = some r → ∃ c t, cs = c :: t ∧ c.isDigit := by
    intro cs r h
    cases cs with
    | nil => cases h
    | cons c t =>
      refine ⟨c, t, rfl, ?_⟩
      rw [readNat] at h
      split_ifs at h with hZero hDigit
      · subst hZero
        decide
      · exact hDigit
  cases cs with
  | nil => cases h
  | cons c t =>
    refine ⟨c, t, rfl, ?_⟩
    rw [readNumber] at h
    split_ifs at h with hMinus
    · obtain ⟨ds, hRead, -⟩ := Option.map_eq_some_iff.mp h
      exact .inr ⟨hMinus, hNat t ds hRead⟩
    · obtain ⟨ds, hRead, -⟩ := Option.map_eq_some_iff.mp h
      obtain ⟨c', t', hCons, hDigit⟩ := hNat _ ds hRead
      cases hCons
      exact .inl hDigit

theorem toDigits_zero_head {n : Nat} {cs : List Char} (h : Nat.toDigits 10 n = '0' :: cs) :
    cs = [] := by
  induction n using Nat.strong_induction_on generalizing cs with
  | _ n ih =>
    by_cases hSmall : n < 10
    · rw [Nat.toDigits_of_lt_base hSmall] at h
      simp_all
    · rw [Nat.toDigits_of_base_le (by omega) (by omega)] at h
      cases hTen : Nat.toDigits 10 (n / 10) with
      | nil => exact absurd hTen Nat.toDigits_ne_nil
      | cons c ds =>
        rw [hTen] at h
        injection h with hHead _
        subst hHead
        have hNil := ih (n / 10) (by omega) hTen
        have hValue := Nat.ofDigitChars_ten_toDigits (n := n / 10)
        rw [hTen, hNil] at hValue
        have hZero : n / 10 = 0 := hValue.symm
        omega

theorem readNat_toDigits (n : Nat) :
    readNat (Nat.toDigits 10 n) = some (Nat.toDigits 10 n, []) := by
  cases hDigits : Nat.toDigits 10 n with
  | nil => exact absurd hDigits Nat.toDigits_ne_nil
  | cons c cs =>
    have hAll : ∀ d ∈ c :: cs, d.isDigit := fun d hd =>
      Nat.isDigit_of_mem_toDigits (b := 10) (n := n) (by omega) (by omega) (hDigits ▸ hd)
    have hTail : ∀ d ∈ cs, d.isDigit := fun d hd => hAll d (List.mem_cons_of_mem c hd)
    rw [readNat]
    by_cases hZero : c = '0'
    · subst hZero
      simp [toDigits_zero_head hDigits]
    · rw [if_neg hZero, if_pos (hAll c List.mem_cons_self), List.takeWhile_eq_self_iff.mpr hTail,
        List.dropWhile_eq_nil_iff.mpr hTail]

theorem readUnsigned_toDigits (negative : Bool) (n : Nat) :
    readUnsigned float negative (Nat.toDigits 10 n) =
      some (.int (if negative then -(n : Int) else n), []) := by
  simp [readUnsigned, readNat_toDigits, readFraction, readExponent]

theorem readNumber_printInt (n : Int) : readNumber float (printInt n) = some (.int n, []) := by
  cases n with
  | ofNat n =>
    cases hDigits : Nat.toDigits 10 n with
    | nil => exact absurd hDigits Nat.toDigits_ne_nil
    | cons c cs =>
      have hMinus : c ≠ '-' := by
        rintro rfl
        have hDigit := Nat.isDigit_of_mem_toDigits (b := 10) (n := n) (c := '-') (by omega) (by omega)
          (by simp [hDigits])
        exact absurd hDigit (by decide)
      rw [printInt, hDigits, readNumber, if_neg hMinus, ← hDigits, readUnsigned_toDigits]
      rfl
  | negSucc n =>
    rw [printInt, readNumber, if_pos rfl, readUnsigned_toDigits]
    rfl

theorem dict_eq (items : List (String × Value)) (h : (items.map (·.1)).Nodup) : dict items = items := by
  have hFold : ∀ (items acc : List (String × Value)), ((acc ++ items).map (·.1)).Nodup →
      items.foldl insert acc = acc ++ items := by
    intro items
    induction items with
    | nil => simp
    | cons item items ih =>
      intro acc hNodup
      have hNew : acc.any (·.1 = item.1) = false := by
        rw [List.map_append, List.map_cons, List.nodup_append] at hNodup
        simp only [List.any_eq_false, decide_eq_true_eq]
        exact fun i hi => hNodup.2.2 i.1 (List.mem_map_of_mem hi) item.1 List.mem_cons_self
      rw [List.foldl_cons, insert, hNew, if_neg Bool.false_ne_true, ih _ (by simpa using hNodup)]
      simp
  rw [dict, hFold items [] (by simpa using h), List.nil_append]

variable (float) in
mutual

def Value.Plain : Value → Prop
  | .real token => readNumber float token.toList = some (.real token, [])
  | .arr xs => PlainElements xs
  | .obj items => (items.map (·.1)).Nodup ∧ PlainMembers items
  | _ => True

def PlainElements : List Value → Prop
  | [] => True
  | x :: xs => x.Plain ∧ PlainElements xs

def PlainMembers : List (String × Value) → Prop
  | [] => True
  | (_, x) :: items => x.Plain ∧ PlainMembers items

end

def Begins : List Char → Prop
  | [] => False
  | c :: _ => isSpace c = false ∧ c ≠ ']'

theorem Begins.append {cs : List Char} (h : Begins cs) (rest : List Char) : Begins (cs ++ rest) := by
  cases cs with
  | nil => exact h.elim
  | cons c cs => exact h

theorem Begins.skip {cs : List Char} (h : Begins cs) : skip cs = cs := by
  cases cs with
  | nil => rfl
  | cons c cs => simp [Json.skip, h.1]

theorem digit_toNat {c : Char} (h : c.isDigit) : 48 ≤ c.toNat ∧ c.toNat ≤ 57 := by
  simpa [Char.isDigit, UInt32.le_iff_toNat_le] using h

theorem digit_ne {c d : Char} (h : c.isDigit) (hOther : d.isDigit = false) : c ≠ d := by
  rintro rfl
  exact absurd h (by simp [hOther])

theorem begins_number {cs : List Char} {r : Value × List Char} (h : readNumber float cs = some r) :
    Begins cs := by
  obtain ⟨c, t, rfl, hDigit | ⟨rfl, -⟩⟩ := readNumber_head h
  · have hRange := digit_toNat hDigit
    exact ⟨by simp [isSpace]; omega, digit_ne hDigit (by decide)⟩
  · exact ⟨by decide, by decide⟩

theorem begins_print {v : Value} (h : v.Plain float) : Begins (print v) := by
  cases v with
  | null | nan | str _ | arr _ | obj _ => exact ⟨by decide, by decide⟩
  | bool b | infinity b => cases b <;> exact ⟨by decide, by decide⟩
  | int n =>
    have hRead : readNumber float (printInt n) = some (.int n, []) := readNumber_printInt n
    exact begins_number hRead
  | real token => exact begins_number h

theorem readValue_number {cs rest : List Char} {v : Value} (h : readNumber float cs = some (v, []))
    (hStop : Stop rest) (n : Nat) : readValue float (n + 1) (cs ++ rest) = some (v, rest) := by
  have hRead := readNumber_append h hStop
  obtain ⟨c, t, rfl, hHead⟩ := readNumber_head h
  have hOther : ∀ d : Char, d.isDigit = false → d ≠ '-' → c ≠ d := by
    intro d hd hMinus
    obtain hDigit | ⟨rfl, -⟩ := hHead
    · exact digit_ne hDigit hd
    · exact hMinus.symm
  have hWord : readWord "-Infinity" (.infinity true) (c :: (t ++ rest)) = none := by
    obtain hDigit | ⟨rfl, d, u, rfl, hDigit⟩ := hHead
    · have hMinus : c ≠ '-' := digit_ne hDigit (by decide)
      simp [readWord, hMinus.symm]
    · have hLetter : d ≠ 'I' := digit_ne hDigit (by decide)
      simp [readWord, hLetter.symm]
  rw [List.cons_append] at hRead ⊢
  rw [readValue, if_neg (hOther _ (by decide) (by decide)), if_neg (hOther _ (by decide) (by decide)),
    if_neg (hOther _ (by decide) (by decide)), if_neg (hOther _ (by decide) (by decide)),
    if_neg (hOther _ (by decide) (by decide)), if_neg (hOther _ (by decide) (by decide)),
    if_neg (hOther _ (by decide) (by decide)), if_neg (hOther _ (by decide) (by decide)), hWord, hRead]
  rfl

theorem readWord_append (word : String) (v : Value) (rest : List Char) :
    readWord word v (word.toList ++ rest) = some (v, rest) := by
  simp [readWord, ← String.length_toList]

theorem readValue_quote (s : String) (n : Nat) (rest : List Char) :
    readValue float (n + 1) (quote s ++ rest) = some (.str s, rest) := by
  rw [quote, List.cons_append, List.append_assoc, List.singleton_append, readValue, if_pos rfl,
    readString_quote]
  rfl

theorem begins_printElements {x : Value} {xs : List Value} (h : x.Plain float) :
    Begins (printElements (x :: xs)) := by
  cases xs with
  | nil => simpa [printElements] using begins_print h
  | cons y ys => simpa [printElements] using (begins_print h).append _

theorem readValue_arr {cs rest : List Char} {xs : List Value} {n : Nat} (h : Begins cs)
    (hRead : readElements float n (cs ++ ']' :: rest) = some (xs, rest)) :
    readValue float (n + 1) ('[' :: (cs ++ ']' :: rest)) = some (.arr xs, rest) := by
  cases cs with
  | nil => exact h.elim
  | cons c cs =>
    rw [readValue, if_neg (by decide), if_neg (by decide), if_pos rfl, (h.append _).skip]
    simp only [List.cons_append] at hRead ⊢
    rw [if_neg h.2, hRead]
    rfl

theorem readValue_obj {cs rest : List Char} {items : List (String × Value)} {n : Nat}
    (hNodup : (items.map (·.1)).Nodup)
    (hRead : readMembers float n (quoteMark :: (cs ++ Char.ofNat 125 :: rest)) = some (items, rest)) :
    readValue float (n + 1) (Char.ofNat 123 :: quoteMark :: (cs ++ Char.ofNat 125 :: rest)) =
      some (.obj items, rest) := by
  have hSkip (t : List Char) : skip (quoteMark :: t) = quoteMark :: t := rfl
  rw [readValue, if_neg (by decide), if_pos rfl, hSkip]
  simp only
  rw [if_neg (by decide), hRead]
  simp [dict_eq items hNodup]

/-! The elements and the members, by what stands behind the first. -/

theorem readElements_last {cs rest : List Char} {x : Value} {n : Nat}
    (hRead : readValue float n (cs ++ ']' :: rest) = some (x, ']' :: rest)) :
    readElements float (n + 1) (cs ++ ']' :: rest) = some ([x], rest) := by
  rw [readElements, hRead]
  rfl

theorem readElements_comma {cs t : List Char} {x : Value} {n : Nat} (hBegins : Begins t)
    (hRead : readValue float n (cs ++ ',' :: t) = some (x, ',' :: t)) :
    readElements float (n + 1) (cs ++ ',' :: t) =
      (readElements float n t).map fun s => (x :: s.1, s.2) := by
  have hSkip : skip (',' :: t) = ',' :: t := rfl
  rw [readElements, hRead, Option.bind_some]
  simp only [hSkip, if_true, hBegins.skip]

theorem readMembers_last (k : String) {cs rest : List Char} {x : Value} {n : Nat} (hBegins : Begins cs)
    (hRead : readValue float n (cs ++ Char.ofNat 125 :: rest) = some (x, Char.ofNat 125 :: rest)) :
    readMembers float (n + 1) (quote k ++ ':' :: (cs ++ Char.ofNat 125 :: rest)) =
      some ([(k, x)], rest) := by
  have hColon (t : List Char) : skip (':' :: t) = ':' :: t := rfl
  rw [quote, List.cons_append, List.append_assoc, List.singleton_append, readMembers, if_pos rfl,
    readString_quote, Option.bind_some]
  simp only [hColon, if_true, (hBegins.append _).skip, hRead, Option.bind_some]
  rfl

theorem readMembers_comma (k : String) {cs t : List Char} {x : Value} {n : Nat} (hBegins : Begins cs)
    (hNext : Begins t) (hRead : readValue float n (cs ++ ',' :: t) = some (x, ',' :: t)) :
    readMembers float (n + 1) (quote k ++ ':' :: (cs ++ ',' :: t)) =
      (readMembers float n t).map fun s => ((k, x) :: s.1, s.2) := by
  have hColon (t : List Char) : skip (':' :: t) = ':' :: t := rfl
  have hComma (t : List Char) : skip (',' :: t) = ',' :: t := rfl
  rw [quote, List.cons_append, List.append_assoc, List.singleton_append, readMembers, if_pos rfl,
    readString_quote, Option.bind_some]
  simp only [hColon, if_true, (hBegins.append _).skip, hRead, Option.bind_some, hComma, hNext.skip]

theorem printMembers_head (item : String × Value) (items : List (String × Value)) :
    ∃ t, printMembers (item :: items) = quoteMark :: t := by
  obtain ⟨k, x⟩ := item
  cases items with
  | nil => exact ⟨_, rfl⟩
  | cons item items => exact ⟨_, rfl⟩

theorem begins_printMembers (item : String × Value) (items : List (String × Value)) (rest : List Char) :
    Begins (printMembers (item :: items) ++ rest) := by
  obtain ⟨t, hPrint⟩ := printMembers_head item items
  rw [hPrint]
  exact ⟨by decide, by decide⟩

theorem stop_comma (t : List Char) : Stop (',' :: t) := .inl rfl

theorem stop_bracket (t : List Char) : Stop (']' :: t) := .inr (.inl rfl)

theorem stop_brace (t : List Char) : Stop (Char.ofNat 125 :: t) := .inr (.inr rfl)

mutual

theorem readValue_print (v : Value) (h : v.Plain float) (n : Nat) (rest : List Char)
    (hFuel : 2 * (print v).length ≤ n) (hStop : Stop rest) :
    readValue float n (print v ++ rest) = some (v, rest) := by
  cases n with
  | zero =>
    have hBegins := begins_print h
    cases hPrint : print v with
    | nil => exact (hPrint ▸ hBegins : Begins []).elim
    | cons c cs => simp [hPrint] at hFuel
  | succ n =>
    cases v with
    | null => exact readWord_append "null" .null rest
    | bool b =>
      cases b
      · exact readWord_append "false" (.bool false) rest
      · exact readWord_append "true" (.bool true) rest
    | int k => exact readValue_number (readNumber_printInt k) hStop n
    | real token => exact readValue_number h hStop n
    | nan => exact readWord_append "NaN" .nan rest
    | infinity negative =>
      cases negative
      · exact readWord_append "Infinity" (.infinity false) rest
      · have hWord := readWord_append "-Infinity" (.infinity true) rest
        have hOr : readValue float (n + 1) ("-Infinity".toList ++ rest) =
            (readWord "-Infinity" (.infinity true) ("-Infinity".toList ++ rest)).or
              (readNumber float ("-Infinity".toList ++ rest)) := rfl
        rw [hWord, Option.some_or] at hOr
        exact hOr
    | str s => exact readValue_quote s n rest
    | arr xs =>
      cases xs with
      | nil => rfl
      | cons x xs =>
        simp only [print, List.length_cons, List.length_append, List.length_nil] at hFuel
        have hRead := readElements_print (x :: xs) h (by simp) n rest (by omega)
        simpa [print] using readValue_arr (begins_printElements h.1) hRead
    | obj items =>
      cases items with
      | nil => rfl
      | cons item items =>
        simp only [print, List.length_cons, List.length_append, List.length_nil] at hFuel
        have hRead := readMembers_print (item :: items) h.2 (by simp) n rest (by omega)
        obtain ⟨t, hPrint⟩ := printMembers_head item items
        rw [hPrint] at hRead
        simpa [print, hPrint] using readValue_obj h.1 hRead

theorem readElements_print (xs : List Value) (h : PlainElements float xs) (hSome : xs ≠ [])
    (n : Nat) (rest : List Char) (hFuel : 2 * (printElements xs).length + 1 ≤ n) :
    readElements float n (printElements xs ++ ']' :: rest) = some (xs, rest) := by
  cases n with
  | zero => omega
  | succ n =>
    match xs with
    | [] => exact absurd rfl hSome
    | [x] =>
      simp only [printElements] at hFuel ⊢
      exact readElements_last (readValue_print x h.1 n _ (by omega) (stop_bracket rest))
    | x :: y :: ys =>
      simp only [printElements, List.length_append, List.length_cons] at hFuel
      have hValue := readValue_print x h.1 n (',' :: (printElements (y :: ys) ++ ']' :: rest)) (by omega)
        (stop_comma _)
      have hRest := readElements_print (y :: ys) h.2 (by simp) n rest (by omega)
      have hComma := readElements_comma ((begins_printElements h.2.1).append _) hValue
      rw [hRest] at hComma
      simpa [printElements] using hComma

theorem readMembers_print (items : List (String × Value)) (h : PlainMembers float items)
    (hSome : items ≠ []) (n : Nat) (rest : List Char)
    (hFuel : 2 * (printMembers items).length + 1 ≤ n) :
    readMembers float n (printMembers items ++ Char.ofNat 125 :: rest) = some (items, rest) := by
  cases n with
  | zero => omega
  | succ n =>
    match items with
    | [] => exact absurd rfl hSome
    | [(k, x)] =>
      simp only [printMembers, List.length_append, List.length_cons] at hFuel
      have hValue := readValue_print x h.1 n _ (by omega) (stop_brace rest)
      simpa [printMembers] using readMembers_last k (begins_print h.1) hValue
    | (k, x) :: item :: items =>
      simp only [printMembers, List.length_append, List.length_cons] at hFuel
      have hValue := readValue_print x h.1 n
        (',' :: (printMembers (item :: items) ++ Char.ofNat 125 :: rest)) (by omega) (stop_comma _)
      have hRest := readMembers_print (item :: items) h.2 (by simp) n rest (by omega)
      have hComma := readMembers_comma k (begins_print h.1) (begins_printMembers item items _) hValue
      rw [hRest] at hComma
      simpa [printMembers] using hComma

end

theorem loads_dumps (v : Value) (h : v.Plain float) : loads float (dumps v) = some v := by
  have hSkip : skip (print v) = print v := (begins_print h).skip
  have hRead := readValue_print v h (2 * (print v).length + 2) [] (by omega) trivial
  rw [List.append_nil] at hRead
  simp only [loads, dumps, String.toList_ofList, hSkip, hRead, Option.bind_some]
  rfl

theorem insert_keys (items : List (String × Value)) (item : String × Value) :
    (insert items item).map (·.1) =
      if item.1 ∈ items.map (·.1) then items.map (·.1) else items.map (·.1) ++ [item.1] := by
  by_cases h : item.1 ∈ items.map (·.1)
  · have hAny : items.any (·.1 = item.1) = true := by
      obtain ⟨i, hi, hKey⟩ := List.mem_map.mp h
      exact List.any_eq_true.mpr ⟨i, hi, by simpa using hKey⟩
    rw [if_pos h, insert, if_pos hAny, List.map_map]
    refine List.map_congr_left fun i _ => ?_
    by_cases hKey : i.1 = item.1 <;> simp [hKey]
  · have hAny : ¬items.any (·.1 = item.1) = true := by
      intro hAny
      obtain ⟨i, hi, hKey⟩ := List.any_eq_true.mp hAny
      exact h (List.mem_map.mpr ⟨i, hi, by simpa using hKey⟩)
    rw [if_neg h, insert, if_neg hAny, List.map_append]
    rfl

theorem plainMembers_iff (items : List (String × Value)) :
    PlainMembers float items ↔ ∀ i ∈ items, i.2.Plain float := by
  induction items with
  | nil => simp [PlainMembers]
  | cons item items ih => simp [PlainMembers, ih]

theorem plain_dict {items : List (String × Value)} (h : PlainMembers float items) :
    (Value.obj (dict items)).Plain float := by
  have hFold : ∀ items acc : List (String × Value), PlainMembers float items →
      (Value.obj acc).Plain float → (Value.obj (items.foldl insert acc)).Plain float := by
    intro items
    induction items with
    | nil => exact fun acc _ hAcc => hAcc
    | cons item items ih =>
      intro acc hItems hAcc
      refine ih _ hItems.2 ⟨?_, (plainMembers_iff _).mpr fun i hi => ?_⟩
      · rw [insert_keys]
        split_ifs with hKey
        · exact hAcc.1
        · exact hAcc.1.append (List.nodup_singleton _) (by simpa using hKey)
      · have hOld := (plainMembers_iff _).mp hAcc.2
        unfold insert at hi
        split_ifs at hi
        · obtain ⟨j, hj, rfl⟩ := List.mem_map.mp hi
          split_ifs
          · exact hItems.1
          · exact hOld j hj
        · obtain hi | hi := List.mem_append.mp hi
          · exact hOld i hi
          · cases List.mem_singleton.mp hi
            exact hItems.1
  exact hFold items [] h ⟨List.nodup_nil, trivial⟩

theorem plain_readNumber (hFloat : ∀ token, (float token).Plain float) {cs : List Char}
    {r : Value × List Char} (h : readNumber float cs = some r) : r.1.Plain float := by
  have hUnsigned : ∀ negative cs r, readUnsigned float negative cs = some r → r.1.Plain float := by
    intro negative cs r h
    obtain ⟨ds, -, rfl⟩ := Option.map_eq_some_iff.mp h
    simp only
    split
    · trivial
    · exact hFloat _
  cases cs with
  | nil => cases h
  | cons c cs =>
    rw [readNumber] at h
    split_ifs at h
    · exact hUnsigned _ _ _ h
    · exact hUnsigned _ _ _ h

theorem readWord_eq {word : String} {v : Value} {cs : List Char} {r : Value × List Char}
    (h : readWord word v cs = some r) : r.1 = v := by
  unfold readWord at h
  split_ifs at h
  cases h
  rfl

theorem plain_read (hFloat : ∀ token, (float token).Plain float) (n : Nat) :
    (∀ cs r, readValue float n cs = some r → r.1.Plain float) ∧
      (∀ cs r, readElements float n cs = some r → PlainElements float r.1) ∧
      ∀ cs r, readMembers float n cs = some r → PlainMembers float r.1 := by
  induction n with
  | zero => exact ⟨fun cs r h => (by simp [readValue] at h), fun cs r h => (by simp [readElements] at h),
      fun cs r h => (by simp [readMembers] at h)⟩
  | succ n ih =>
    obtain ⟨hValue, hElements, hMembers⟩ := ih
    refine ⟨fun cs r h => ?_, fun cs r h => ?_, fun cs r h => ?_⟩
    · cases cs with
      | nil => simp [readValue] at h
      | cons c cs =>
        rw [readValue] at h
        split_ifs at h with hQuote hBrace hBracket
        · obtain ⟨s, -, rfl⟩ := Option.map_eq_some_iff.mp h
          trivial
        · split at h
          · split_ifs at h
            · cases h
              exact ⟨List.nodup_nil, trivial⟩
            · obtain ⟨s, hs, rfl⟩ := Option.map_eq_some_iff.mp h
              exact plain_dict (hMembers _ _ hs)
          · cases h
        · split at h
          · split_ifs at h
            · cases h
              trivial
            · obtain ⟨s, hs, rfl⟩ := Option.map_eq_some_iff.mp h
              exact hElements _ _ hs
          · cases h
        all_goals try
          rw [readWord_eq h]
          trivial
        obtain hWord | ⟨-, hNumber⟩ := Option.or_eq_some_iff.mp h
        · rw [readWord_eq hWord]
          trivial
        · exact plain_readNumber hFloat hNumber
    · rw [readElements] at h
      obtain ⟨x, hx, h⟩ := Option.bind_eq_some_iff.mp h
      split at h
      · split_ifs at h
        · obtain ⟨s, hs, rfl⟩ := Option.map_eq_some_iff.mp h
          exact ⟨hValue _ _ hx, hElements _ _ hs⟩
        · cases h
          exact ⟨hValue _ _ hx, trivial⟩
      · cases h
    · cases cs with
      | nil => simp [readMembers] at h
      | cons q cs =>
        rw [readMembers] at h
        split_ifs at h
        obtain ⟨k, -, h⟩ := Option.bind_eq_some_iff.mp h
        split at h
        · split_ifs at h
          obtain ⟨x, hx, h⟩ := Option.bind_eq_some_iff.mp h
          split at h
          · split_ifs at h
            · obtain ⟨s, hs, rfl⟩ := Option.map_eq_some_iff.mp h
              exact ⟨hValue _ _ hx, hMembers _ _ hs⟩
            · cases h
              exact ⟨hValue _ _ hx, trivial⟩
          · cases h
        · cases h

theorem plain_loads (hFloat : ∀ token, (float token).Plain float) {s : String} {v : Value}
    (h : loads float s = some v) : v.Plain float := by
  obtain ⟨r, hRead, hRest⟩ := Option.bind_eq_some_iff.mp h
  split_ifs at hRest
  cases hRest
  exact (plain_read hFloat _).1 _ _ hRead

end

end Json
