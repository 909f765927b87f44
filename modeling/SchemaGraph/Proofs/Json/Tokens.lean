import SchemaGraph.Json.Reader
import SchemaGraph.Json.Text

/-!
# Reading Numbers and Strings Back

The texts of integers and of strings are read as what they were written from, in front of
anything that does not go on with a number.  Only an integer of more than 64 bits may come back as
something else: as a number of another kind.

- `number?_intChars`, `rereadInt_eq`: the text of an integer
- `string?_writeStringBody`: the text of a string
-/

namespace SchemaGraph.Json

/-! ## §1 Numbers -/

theorem digitChar_isDigit {n : Nat} (h : n < 10) : (digitChar n).isDigit = true := by
  have : ∀ n < 10, (digitChar n).isDigit = true := by decide
  exact this n h

theorem digitValue_digitChar {n : Nat} (h : n < 10) : digitValue (digitChar n) = n := by
  have : ∀ n < 10, digitValue (digitChar n) = n := by decide
  exact this n h

theorem isDigit_of_mem_decimalDigits {n : Nat} {c : Char} (h : c ∈ decimalDigits n) :
    c.isDigit = true := by
  induction n using decimalDigits.induct with
  | case1 n hlt =>
    rw [decimalDigits, if_pos hlt] at h
    obtain rfl := List.mem_singleton.1 h
    exact digitChar_isDigit hlt
  | case2 n hge ih =>
    rw [decimalDigits, if_neg hge] at h
    -- The last digit comes behind those of a tenth of the number.
    rcases List.mem_append.1 h with h | h
    · exact ih h
    · obtain rfl := List.mem_singleton.1 h
      exact digitChar_isDigit (Nat.mod_lt _ (by decide))

theorem digitsValue_decimalDigits (n : Nat) : digitsValue (decimalDigits n) = n := by
  induction n using decimalDigits.induct with
  | case1 n hlt =>
    rw [decimalDigits, if_pos hlt]
    simp [digitsValue, digitValue_digitChar hlt]
  | case2 n hge ih =>
    have hlast := digitValue_digitChar (Nat.mod_lt n (show 0 < 10 by decide))
    rw [digitsValue] at ih
    rw [decimalDigits, if_neg hge, digitsValue, List.foldl_append, ih]
    simp only [List.foldl_cons, List.foldl_nil, hlast]
    omega

/-- Only zero is written with a zero in front. -/
theorem decimalDigits_eq (n : Nat) :
    decimalDigits n = ['0'] ∨ ∃ c cs, decimalDigits n = c :: cs ∧ c ≠ '0' := by
  induction n using decimalDigits.induct with
  | case1 n hlt =>
    have hall : ∀ n < 10, digitChar n = '0' ∨ digitChar n ≠ '0' := by decide
    rw [decimalDigits, if_pos hlt]
    rcases hall n hlt with h | h
    · exact .inl (by rw [h])
    · exact .inr ⟨_, _, rfl, h⟩
  | case2 n hge ih =>
    rw [decimalDigits, if_neg hge]
    rcases ih with h | ⟨c, cs, h, hc⟩
    · -- A number of two digits or more does not start with a zero.
      have hvalue := digitsValue_decimalDigits (n / 10)
      rw [h] at hvalue
      have hzero : n / 10 = 0 := hvalue.symm
      omega
    · exact .inr ⟨c, cs ++ [digitChar (n % 10)], by rw [h]; rfl, hc⟩

variable {rest : List Char}

/-- No number goes on here. -/
def Stops (rest : List Char) : Prop :=
  ∀ c ∈ rest.head?, c.isDigit = false ∧ c ≠ '.' ∧ c ≠ 'e' ∧ c ≠ 'E'

theorem takeWhile_digits {ds : List Char} (hds : ∀ c ∈ ds, c.isDigit = true)
    (hrest : Stops rest) : (ds ++ rest).takeWhile Char.isDigit = ds := by
  rw [List.takeWhile_append_of_pos hds]
  cases rest with
  | nil => simp
  | cons c rest => simp [(hrest c rfl).1]

theorem dropWhile_digits {ds : List Char} (hds : ∀ c ∈ ds, c.isDigit = true)
    (hrest : Stops rest) : (ds ++ rest).dropWhile Char.isDigit = rest := by
  rw [List.dropWhile_append_of_pos hds]
  cases rest with
  | nil => rfl
  | cons c rest => simp [(hrest c rfl).1]

theorem whole?_decimalDigits (n : Nat) (hrest : Stops rest) :
    whole? (decimalDigits n ++ rest) = some (decimalDigits n, rest) := by
  have hdigits : ∀ c ∈ decimalDigits n, c.isDigit = true :=
    fun c => isDigit_of_mem_decimalDigits
  rcases decimalDigits_eq n with h | ⟨c, cs, h, hc⟩
  · rw [h]
    rfl
  -- A digit that is not zero begins a number of any length.
  · have hwhole : whole? (c :: (cs ++ rest)) = digits? (c :: (cs ++ rest)) := by
      unfold whole?
      split
      next heq => exact absurd (List.cons.inj heq).1 hc
      next => rfl
    rw [h] at hdigits ⊢
    have htake := takeWhile_digits hdigits hrest
    have hdrop := dropWhile_digits hdigits hrest
    rw [List.cons_append] at htake hdrop ⊢
    rw [hwhole, digits?, htake, hdrop]

theorem fraction?_of_stops (hrest : Stops rest) : fraction? rest = some (none, rest) := by
  unfold fraction?
  split
  next rest' => exact absurd rfl (hrest '.' rfl).2.1
  next => rfl

theorem exponent?_of_stops (hrest : Stops rest) : exponent? rest = some (none, rest) := by
  cases rest with
  | nil => rfl
  | cons c rest => simp [exponent?, (hrest c rfl).2.2.1, (hrest c rfl).2.2.2]

/-- What reading makes of the text of an integer. -/
def rereadInt (n : Int) : Json :=
  numberValue (decide (n < 0)) (decimalDigits n.natAbs) none none (String.ofList (intChars n))

theorem intChars_of_neg {n : Int} (h : n < 0) : intChars n = '-' :: decimalDigits n.natAbs := by
  cases n with
  | ofNat k => exact absurd h (by simp)
  | negSucc k => rfl

theorem intChars_of_nonneg {n : Int} (h : ¬ n < 0) : intChars n = decimalDigits n.natAbs := by
  cases n with
  | ofNat k => rfl
  | negSucc k => exact absurd (Int.negSucc_lt_zero k) h

theorem number?_intChars (n : Int) (hrest : Stops rest) :
    number? (intChars n ++ rest) = some (rereadInt n, rest) := by
  -- The literal that is kept is what the reader has gone through.
  have hliteral : (intChars n ++ rest).take ((intChars n ++ rest).length - rest.length) =
      intChars n := by
    simp
  have hwhole := whole?_decimalDigits n.natAbs hrest
  have hminus : ∀ c ∈ decimalDigits n.natAbs, c ≠ '-' := by
    rintro c hc rfl
    exact absurd (isDigit_of_mem_decimalDigits hc) (by decide)
  by_cases h : n < 0
  -- A minus sign is taken off in front and kept for the value.
  · rw [rereadInt, decide_eq_true h]
    rw [intChars_of_neg h] at hliteral ⊢
    simp only [number?, List.cons_append, hwhole, fraction?_of_stops hrest,
      exponent?_of_stops hrest, bind, Option.bind] at hliteral ⊢
    rw [hliteral]
    rfl
  · rw [rereadInt, decide_eq_false h]
    rw [intChars_of_nonneg h] at hliteral ⊢
    unfold number?
    split
    next heq =>
      split at heq
      next h' =>
        -- Digits do not begin with a minus sign.
        rcases decimalDigits_eq n.natAbs with hd | ⟨c, cs, hd, -⟩
        · rw [hd] at h'
          cases h'
        · rw [hd] at h' hminus
          exact absurd (List.cons.inj h').1 (hminus c List.mem_cons_self)
      next =>
        cases heq
        simp only [hwhole, fraction?_of_stops hrest, exponent?_of_stops hrest, bind, Option.bind,
          hliteral]
        rfl

/-- An integer beyond 64 bits is read as a number of another kind, if it is one at all. -/
theorem rereadInt_eq (n : Int) :
    rereadInt n =
      if -0x8000000000000000 ≤ n ∧ n ≤ 0xFFFFFFFFFFFFFFFF then .int n
      else if staysFinite (scaled (decimalDigits n.natAbs) [] 0).1
          (scaled (decimalDigits n.natAbs) [] 0).2 then .number (String.ofList (intChars n))
      else .unreadable := by
  have hsigned : (if decide (n < 0) = true then
        -((digitsValue (decimalDigits n.natAbs) : Nat) : Int)
      else (digitsValue (decimalDigits n.natAbs) : Nat)) = n := by
    rw [digitsValue_decimalDigits]
    by_cases h : n < 0
    · rw [decide_eq_true h, if_pos rfl]
      omega
    · rw [decide_eq_false h, if_neg Bool.false_ne_true]
      omega
  have hzero : ¬ (decide (n < 0) = true ∧ digitsValue (decimalDigits n.natAbs) = 0) := by
    rw [digitsValue_decimalDigits, decide_eq_true_eq]
    omega
  unfold rereadInt numberValue
  -- The value is the number again, which has no minus sign if it is zero.
  simp only [hsigned, hzero, Option.isNone_none, not_false_eq_true, true_and, Option.getD_none]

/-- An integer of 64 bits is read as itself. -/
theorem rereadInt_of_range {n : Int} (hlow : -0x8000000000000000 ≤ n)
    (hhigh : n ≤ 0xFFFFFFFFFFFFFFFF) : rereadInt n = .int n := by
  rw [rereadInt_eq, if_pos ⟨hlow, hhigh⟩]

/-- No integer is read as another one. -/
theorem eq_of_rereadInt {n m : Int} (h : rereadInt n = .int m) : m = n := by
  rw [rereadInt_eq] at h
  split at h
  · exact (Json.int.inj h).symm
  · split at h <;> cases h

/-! ## §2 Strings -/

/-- The part of a quoted string that a character is read as. -/
def partOf (c : Char) : StringPart :=
  if c ∈ ['\n', '\r', '\t', '\x08', '\x0c'] ∨ 32 ≤ c.toNat then .char c else .codeUnit c.toNat

theorem codeUnit?_hexChar {n : Nat} (h : n < 32) :
    codeUnit? '0' '0' (hexChar (n / 16)) (hexChar (n % 16)) = some n := by
  have : ∀ n < 32, codeUnit? '0' '0' (hexChar (n / 16)) (hexChar (n % 16)) = some n := by decide
  exact this n h

theorem stringParts_plain {c : Char} (hquote : c ≠ '"') (hback : c ≠ '\\') (hge : 32 ≤ c.toNat)
    (cs : List Char) :
    stringParts (c :: cs) = (stringParts cs).map fun r => (.char c :: r.1, r.2) := by
  -- The character is neither of the two that mean something, and no control character.
  have hplain : ¬ (c.toNat < 32 ∨ c = '\\') := by
    rintro (h | h)
    · omega
    · exact hback h
  rw [stringParts.eq_def (c :: cs)]
  split
  next heq => cases heq
  next heq => exact absurd (List.cons.inj heq).1 hquote
  next heq => exact absurd (List.cons.inj heq).1 hback
  next heq => exact absurd (List.cons.inj heq).1 hback
  next heq =>
    cases heq
    rw [if_neg hplain]
    cases stringParts cs <;> rfl

theorem stringParts_escaped {e c : Char} (h : escaped? e = some c) (cs : List Char) :
    stringParts ('\\' :: e :: cs) = (stringParts cs).map fun r => (.char c :: r.1, r.2) := by
  rw [stringParts.eq_def ('\\' :: e :: cs)]
  split
  next heq => cases heq
  next heq => cases heq
  next heq =>
    -- No letter that stands for a character begins a code unit.
    cases heq
    cases h
  next heq =>
    cases heq
    simp only [h]
    cases stringParts cs <;> rfl
  next hne heq =>
    cases heq
    exact absurd rfl (hne e cs rfl)

theorem stringParts_unit {n : Nat} (hlt : n < 32) (cs : List Char) :
    stringParts ('\\' :: 'u' :: '0' :: '0' :: hexChar (n / 16) :: hexChar (n % 16) :: cs) =
      (stringParts cs).map fun r => (.codeUnit n :: r.1, r.2) := by
  rw [stringParts.eq_def]
  simp only [codeUnit?_hexChar hlt]
  cases stringParts cs <;> rfl

theorem stringParts_escapeChar (c : Char) (cs : List Char) :
    stringParts (escapeChar c ++ cs) =
      (stringParts cs).map fun r => (partOf c :: r.1, r.2) := by
  unfold escapeChar
  -- Seven characters have letters of their own; any other is a code unit or stands for itself.
  split
  case h_8 hquote hback hn hr ht hb hf =>
    split
    next hlt =>
      have hpart : partOf c = .codeUnit c.toNat := by
        rw [partOf, if_neg]
        simp only [List.mem_cons, List.not_mem_nil, or_false, not_or]
        exact ⟨⟨hn, hr, ht, hb, hf⟩, Nat.not_le.2 hlt⟩
      rw [hpart]
      exact stringParts_unit hlt cs
    next hge =>
      have hpart : partOf c = .char c := by
        rw [partOf, if_pos (.inr (Nat.not_lt.1 hge))]
      rw [hpart]
      exact stringParts_plain hquote hback (Nat.not_lt.1 hge) cs
  all_goals exact stringParts_escaped rfl cs

/-- A control character is half of no surrogate pair, whatever follows. -/
theorem joinParts_control {n : Nat} (hlt : n < 32) (parts : List StringPart) :
    joinParts (.codeUnit n :: parts) = (joinParts parts).map (Char.ofNat n :: ·) := by
  have hhigh : ¬ (0xD800 ≤ n ∧ n < 0xDC00) := by omega
  have hlow : ¬ (0xDC00 ≤ n ∧ n < 0xE000) := by omega
  have hsurrogate : ¬ (0xD800 ≤ n ∧ n < 0xE000) := by omega
  rcases parts with _ | ⟨_ | low, parts⟩
  · simp [joinParts, hsurrogate]
  · simp [joinParts, hsurrogate]
  · rw [joinParts, if_neg hhigh, if_neg hlow]

theorem joinParts_map_partOf (cs : List Char) : joinParts (cs.map partOf) = some cs := by
  induction cs with
  | nil => rfl
  | cons c cs ih =>
    rw [List.map_cons, partOf]
    split
    next => rw [joinParts, ih, Option.map_some]
    next h =>
      have hlt : c.toNat < 32 := Nat.not_le.1 fun hge => h (.inr hge)
      rw [joinParts_control hlt, ih, Option.map_some, Char.ofNat_toNat]

theorem stringParts_writeStringBody (cs rest : List Char) :
    stringParts (writeStringBody cs rest) = some (cs.map partOf, rest) := by
  induction cs with
  | nil => rfl
  | cons c cs ih =>
    rw [writeStringBody, stringParts_escapeChar, ih]
    rfl

theorem string?_writeStringBody (s : String) (rest : List Char) :
    string? (writeStringBody s.toList rest) = some (some s, rest) := by
  rw [string?, stringParts_writeStringBody]
  simp only [joinParts_map_partOf, Option.map_some, String.ofList_toList]

end SchemaGraph.Json
