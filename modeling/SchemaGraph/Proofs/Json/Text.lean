import SchemaGraph.Proofs.Json.Tokens

/-!
# Reading Text Back

A compact and a pretty text differ in the blanks between their tokens only.  Both are texts of a
layout, and the text of a value in any layout is read as the value, in front of anything that does
not go on with a number.  Only an integer may come back as something else: one of more than 64
bits is read as a number of another kind.

- `writeIn_tight`, `writeIn_indented`: the two texts as texts of a layout
- `value?_writeIn`: the text of a value, by recursion on the number of steps
- `work_le_writeIn`: a text has enough characters for all steps
- `parse?_compact`, `parse?_pretty`: whole documents
-/

namespace SchemaGraph.Json

/-! ## §1 Layouts -/

/-- Characters that reading skips between tokens. -/
def Blank (gap : List Char) : Prop := ∀ c ∈ gap, isGap c = true

/-- The blanks that a writer puts between tokens: at the start of a line with its level of
indentation, and behind the colon of an entry. -/
structure Layout where
  line : Nat → List Char
  space : List Char
  blank_line : ∀ level, Blank (line level)
  blank_space : Blank space

/-- The layout of compact text: no blanks. -/
def Layout.tight : Layout where
  line _ := []
  space := []
  blank_line _ := nofun
  blank_space := nofun

/-- The layout of pretty text: a line for each item and entry. -/
def Layout.indented : Layout where
  line level := newLine level []
  space := [' ']
  blank_line level := by simp [Blank, newLine, isGap]
  blank_space := by simp [Blank, isGap]

mutual

/-- The text of a value in a layout, at a level of indentation and in front of `rest`. -/
def writeIn (l : Layout) (level : Nat) : Json → List Char → List Char
  | .arr [], rest => '[' :: ']' :: rest
  | .arr (x :: xs), rest =>
    '[' :: (l.line (level + 1) ++ writeIn l (level + 1) x (writeItemsIn l level xs rest))
  | .obj [], rest => '\x7b' :: '\x7d' :: rest
  | .obj ((k, x) :: xs), rest =>
    '\x7b' :: (l.line (level + 1) ++ writeString k
      (':' :: (l.space ++ writeIn l (level + 1) x (writeEntriesIn l level xs rest))))
  | atom, rest => writeAtom atom rest

/-- The further items of an array whose brackets stand at `level`, and its end. -/
def writeItemsIn (l : Layout) (level : Nat) : List Json → List Char → List Char
  | [], rest => l.line level ++ ']' :: rest
  | x :: xs, rest =>
    ',' :: (l.line (level + 1) ++ writeIn l (level + 1) x (writeItemsIn l level xs rest))

/-- The further entries of an object whose braces stand at `level`, and its end. -/
def writeEntriesIn (l : Layout) (level : Nat) : List (String × Json) → List Char → List Char
  | [], rest => l.line level ++ '\x7d' :: rest
  | (k, x) :: xs, rest =>
    ',' :: (l.line (level + 1) ++ writeString k
      (':' :: (l.space ++ writeIn l (level + 1) x (writeEntriesIn l level xs rest))))

end

mutual

/-- Compact text has the tight layout. -/
theorem writeIn_tight (level : Nat) (j : Json) (rest : List Char) :
    j.writeIn .tight level rest = j.write rest := by
  match j with
  | .null | .bool _ | .int _ | .number _ | .str _ | .unreadable => simp only [writeIn, write]
  | .arr [] | .obj [] => simp only [writeIn, write]
  | .arr (x :: xs) =>
    rw [writeIn, write, writeIn_tight, writeItemsIn_tight]
    rfl
  | .obj ((k, x) :: xs) =>
    rw [writeIn, write, writeIn_tight, writeEntriesIn_tight]
    rfl

theorem writeItemsIn_tight (level : Nat) (xs : List Json) (rest : List Char) :
    writeItemsIn .tight level xs rest = writeItems xs rest := by
  match xs with
  | [] => rfl
  | x :: xs =>
    rw [writeItemsIn, writeItems, writeIn_tight, writeItemsIn_tight]
    rfl

theorem writeEntriesIn_tight (level : Nat) (xs : List (String × Json)) (rest : List Char) :
    writeEntriesIn .tight level xs rest = writeEntries xs rest := by
  match xs with
  | [] => rfl
  | (k, x) :: xs =>
    rw [writeEntriesIn, writeEntries, writeIn_tight, writeEntriesIn_tight]
    rfl

end

theorem line_indented (level : Nat) (rest : List Char) :
    Layout.indented.line level ++ rest = newLine level rest := by
  simp [Layout.indented, newLine]

mutual

/-- Pretty text has the indented layout. -/
theorem writeIn_indented (level : Nat) (j : Json) (rest : List Char) :
    j.writeIn .indented level rest = j.writePretty level rest := by
  match j with
  | .null | .bool _ | .int _ | .number _ | .str _ | .unreadable => simp only [writeIn, writePretty]
  | .arr [] | .obj [] => simp only [writeIn, writePretty]
  | .arr (x :: xs) =>
    rw [writeIn, writePretty, writeIn_indented, writeItemsIn_indented, line_indented]
  | .obj ((k, x) :: xs) =>
    rw [writeIn, writePretty, writeIn_indented, writeEntriesIn_indented, line_indented]
    rfl

theorem writeItemsIn_indented (level : Nat) (xs : List Json) (rest : List Char) :
    writeItemsIn .indented level xs rest = writePrettyItems level xs rest := by
  match xs with
  | [] => rw [writeItemsIn, writePrettyItems, line_indented]
  | x :: xs =>
    rw [writeItemsIn, writePrettyItems, writeIn_indented, writeItemsIn_indented, line_indented]

theorem writeEntriesIn_indented (level : Nat) (xs : List (String × Json)) (rest : List Char) :
    writeEntriesIn .indented level xs rest = writePrettyEntries level xs rest := by
  match xs with
  | [] => rw [writeEntriesIn, writePrettyEntries, line_indented]
  | (k, x) :: xs =>
    rw [writeEntriesIn, writePrettyEntries, writeIn_indented, writeEntriesIn_indented,
      line_indented]
    rfl

end

/-! ## §2 Gaps -/

variable {gap rest : List Char}

theorem skipGap_cons {c : Char} (h : isGap c = false) (cs : List Char) :
    skipGap (c :: cs) = c :: cs := by
  rw [skipGap, List.dropWhile_cons_of_neg (by simp [h])]

theorem skipGap_append (h : Blank gap) (cs : List Char) : skipGap (gap ++ cs) = skipGap cs :=
  List.dropWhile_append_of_pos h

/-- Reading skips what stands in front of a value. -/
theorem value?_append (h : Blank gap) (fuel : Nat) (cs : List Char) :
    value? fuel (gap ++ cs) = value? fuel cs := by
  cases fuel with
  | zero => rfl
  | succ fuel => rw [value?, value?, skipGap_append h]

theorem items?_append (h : Blank gap) (fuel : Nat) (cs : List Char) :
    items? fuel (gap ++ cs) = items? fuel cs := by
  cases fuel with
  | zero => rfl
  | succ fuel => rw [items?, items?, value?_append h]

theorem entries?_append (h : Blank gap) (fuel : Nat) (cs : List Char) :
    entries? fuel (gap ++ cs) = entries? fuel cs := by
  cases fuel with
  | zero => rfl
  | succ fuel => rw [entries?, entries?, skipGap_append h]

theorem stops_of_mem {c : Char} (h : c ∈ [',', ']', '\x7d', ' ', '\n', '\t', '\r'])
    (rest : List Char) : Stops (c :: rest) := by
  have hall : ∀ c ∈ [',', ']', '\x7d', ' ', '\n', '\t', '\r'],
      c.isDigit = false ∧ c ≠ '.' ∧ c ≠ 'e' ∧ c ≠ 'E' := by simp
  intro d hd
  obtain rfl := Option.mem_some_iff.1 hd
  exact hall c h

/-- Neither a blank goes on with a number, nor what ends an array or an object. -/
theorem stops_append (hgap : Blank gap) {c : Char} (hc : c ∈ [']', '\x7d']) (rest : List Char) :
    Stops (gap ++ c :: rest) := by
  cases gap with
  | nil => exact stops_of_mem (List.mem_append_left [' ', '\n', '\t', '\r'] (.tail ',' hc)) rest
  | cons g gap =>
    refine stops_of_mem ?_ _
    have hg : isGap g = true := hgap g List.mem_cons_self
    simp only [isGap, Bool.or_eq_true, beq_iff_eq] at hg
    rcases hg with ((rfl | rfl) | rfl) | rfl <;> decide

/-! ## §3 Values

What is read back, and how many steps that takes. -/

mutual

/-- The text of every part tells what the part is. -/
def isPlain : Json → Bool
  | .arr items => allPlain items
  | .obj entries => allEntriesPlain entries
  | .number _ | .unreadable => false
  | _ => true

/-- Every item is plain. -/
def allPlain : List Json → Bool
  | [] => true
  | x :: xs => x.isPlain && allPlain xs

/-- The value of every entry is plain. -/
def allEntriesPlain : List (String × Json) → Bool
  | [] => true
  | (_, x) :: xs => x.isPlain && allEntriesPlain xs

end

theorem allPlain_iff {xs : List Json} : allPlain xs = true ↔ ∀ x ∈ xs, x.isPlain = true := by
  induction xs with
  | nil => simp [allPlain]
  | cons x xs ih => simp [allPlain, ih]

theorem allEntriesPlain_iff {xs : List (String × Json)} :
    allEntriesPlain xs = true ↔ ∀ e ∈ xs, e.2.isPlain = true := by
  induction xs with
  | nil => simp [allEntriesPlain]
  | cons e xs ih => simp [allEntriesPlain, ih]

mutual

/-- What reading makes of the text of a value: an integer may be too great. -/
def reread : Json → Json
  | .int n => rereadInt n
  | .arr items => .arr (rereadItems items)
  | .obj entries => .obj (rereadEntries entries)
  | other => other

/-- `reread` on every item. -/
def rereadItems : List Json → List Json
  | [] => []
  | x :: xs => x.reread :: rereadItems xs

/-- `reread` on the value of every entry. -/
def rereadEntries : List (String × Json) → List (String × Json)
  | [] => []
  | (k, x) :: xs => (k, x.reread) :: rereadEntries xs

end

mutual

/-- The number of steps in which the text of a value is read. -/
def work : Json → Nat
  | .arr items => workItems items + 1
  | .obj entries => workEntries entries + 1
  | _ => 1

/-- The number of steps for the items of an array. -/
def workItems : List Json → Nat
  | [] => 0
  | x :: xs => x.work + workItems xs + 1

/-- The number of steps for the entries of an object. -/
def workEntries : List (String × Json) → Nat
  | [] => 0
  | (_, x) :: xs => x.work + workEntries xs + 1

end

/-- Keys with a value make an object. -/
theorem objectOf_some (entries : List (String × Json)) :
    objectOf (entries.map fun e => (some e.1, e.2)) = .obj entries := by
  have hmapM : (entries.map fun e => (some e.1, e.2)).mapM
      (fun e : Option String × Json => e.1.map (·, e.2)) = some entries := by
    induction entries with
    | nil => rfl
    | cons e entries ih => simp [ih]
  rw [objectOf, hmapM]

theorem intChars_head (n : Int) (rest : List Char) :
    ∃ c cs, intChars n ++ rest = c :: cs ∧ (c = '-' ∨ c.isDigit = true) := by
  by_cases h : n < 0
  · exact ⟨'-', _, by rw [intChars_of_neg h]; rfl, .inl rfl⟩
  · rw [intChars_of_nonneg h]
    have hdigit : ∀ c ∈ decimalDigits n.natAbs, c.isDigit = true :=
      fun c => isDigit_of_mem_decimalDigits
    rcases decimalDigits_eq n.natAbs with hd | ⟨c, cs, hd, -⟩
    · exact ⟨'0', _, by rw [hd]; rfl, .inr rfl⟩
    · exact ⟨c, _, by rw [hd]; rfl, .inr (hdigit c (hd ▸ List.mem_cons_self))⟩

theorem ne_of_number_head {c : Char} (hc : c = '-' ∨ c.isDigit = true) :
    ∀ d ∈ [' ', '\n', '\t', '\r', 'n', 't', 'f', '"', '[', ']', '\x7b'], c ≠ d := by
  have hall : ∀ d ∈ [' ', '\n', '\t', '\r', 'n', 't', 'f', '"', '[', ']', '\x7b'],
      d ≠ '-' ∧ d.isDigit = false := by simp
  rintro d hd rfl
  obtain ⟨hminus, hdigit⟩ := hall c hd
  rcases hc with hc | hc
  · exact hminus hc
  · rw [hdigit] at hc
    cases hc

theorem isGap_of_number_head {c : Char} (hc : c = '-' ∨ c.isDigit = true) : isGap c = false := by
  have hne := ne_of_number_head hc
  simp [isGap, hne]

/-- A number is read as such. -/
theorem value?_intChars (fuel : Nat) (n : Int) (hrest : Stops rest) :
    value? (fuel + 1) (intChars n ++ rest) = some (rereadInt n, rest) := by
  obtain ⟨c, cs, hcs, hc⟩ := intChars_head n rest
  rw [hcs, value?, skipGap_cons (isGap_of_number_head hc)]
  split
  case h_7 => rw [← hcs, number?_intChars n hrest]
  all_goals
    next heq => exact absurd (List.cons.inj heq).1 (ne_of_number_head hc _ (by decide))

theorem writeIn_head {j : Json} (hplain : j.isPlain = true) (l : Layout) (level : Nat)
    (rest : List Char) :
    ∃ c cs, j.writeIn l level rest = c :: cs ∧ isGap c = false ∧ c ≠ ']' := by
  cases j with
  | null => exact ⟨'n', _, rfl, by decide, by decide⟩
  | bool b => cases b <;> exact ⟨_, _, rfl, by decide, by decide⟩
  | int n =>
    obtain ⟨c, cs, hcs, hc⟩ := intChars_head n rest
    exact ⟨c, cs, hcs, isGap_of_number_head hc, ne_of_number_head hc _ (by decide)⟩
  | number literal => cases hplain
  | str s => exact ⟨'"', _, rfl, by decide, by decide⟩
  | arr items => cases items <;> exact ⟨'[', _, rfl, by decide, by decide⟩
  | obj entries => cases entries <;> exact ⟨'\x7b', _, rfl, by decide, by decide⟩
  | unreadable => cases hplain

/-- An array that is not empty is read by its items. -/
theorem value?_bracket (hgap : Blank gap) {fuel : Nat} {j : Json} (hplain : j.isPlain = true)
    (l : Layout) (level : Nat) (rest : List Char) :
    value? (fuel + 1) ('[' :: (gap ++ j.writeIn l level rest)) =
      match items? fuel (j.writeIn l level rest) with
      | none => none
      | some (items, rest) => some (.arr items, rest) := by
  obtain ⟨c, cs, hcs, hc, hend⟩ := writeIn_head hplain l level rest
  rw [value?, skipGap_cons (by decide)]
  simp only [skipGap_append hgap, hcs, skipGap_cons hc]
  split
  next heq => exact absurd (List.cons.inj heq).1 hend
  next => rfl

/-- An object that is not empty is read by its entries. -/
theorem value?_brace (hgap : Blank gap) (fuel : Nat) (key : String) (rest : List Char) :
    value? (fuel + 1) ('\x7b' :: (gap ++ writeString key rest)) =
      match entries? fuel (writeString key rest) with
      | none => none
      | some (entries, rest) => some (objectOf entries, rest) := by
  have hquote : skipGap (writeString key rest) = writeString key rest := skipGap_cons (by decide) _
  rw [value?, skipGap_cons (by decide)]
  simp only [skipGap_append hgap, hquote]
  rw [writeString]
  rfl

mutual

/-- **Values**: the text of a value is read as that value, and what follows is left. -/
theorem value?_writeIn (l : Layout) (level : Nat) {j : Json} (hplain : j.isPlain = true)
    {fuel : Nat} (hfuel : j.work ≤ fuel) {rest : List Char} (hrest : Stops rest) :
    value? fuel (j.writeIn l level rest) = some (j.reread, rest) := by
  -- The three readers call each other with one step less, so the recursion is on the steps.
  match fuel with
  | 0 => cases j <;> simp [work] at hfuel
  | fuel + 1 =>
    match j with
    | .null => rfl
    | .bool true => rfl
    | .bool false => rfl
    | .int n => exact value?_intChars fuel n hrest
    | .number literal => cases hplain
    | .unreadable => cases hplain
    | .str s =>
      show value? (fuel + 1) ('"' :: writeStringBody s.toList rest) = _
      rw [value?, skipGap_cons (by decide)]
      simp only [string?_writeStringBody]
      rfl
    | .arr [] => rfl
    | .arr (x :: xs) =>
      -- The bracket opens a list that is not empty, and takes one step.
      have hx : x.isPlain = true ∧ allPlain xs = true := by simpa [isPlain, allPlain] using hplain
      have hwork : workItems (x :: xs) ≤ fuel := by simpa [work] using hfuel
      have hitems := items?_writeIn l level hx.1 hx.2 hwork rest
      rw [writeIn, value?_bracket (l.blank_line _) hx.1, hitems]
      rfl
    | .obj [] => rfl
    | .obj ((k, x) :: xs) =>
      -- The brace takes a step as well.
      have hx : x.isPlain = true ∧ allEntriesPlain xs = true := by
        simpa [isPlain, allEntriesPlain] using hplain
      have hwork : workEntries ((k, x) :: xs) ≤ fuel := by simpa [work] using hfuel
      have hentries := entries?_writeIn l level k hx.1 hx.2 hwork rest
      rw [writeIn, value?_brace (l.blank_line _), hentries]
      simp only [objectOf_some]
      rfl
termination_by fuel

/-- The text of items is read as those items. -/
theorem items?_writeIn (l : Layout) (level : Nat) {x : Json} {xs : List Json}
    (hx : x.isPlain = true) (hxs : allPlain xs = true) {fuel : Nat}
    (hfuel : workItems (x :: xs) ≤ fuel) (rest : List Char) :
    items? fuel (x.writeIn l (level + 1) (writeItemsIn l level xs rest)) =
      some (x.reread :: rereadItems xs, rest) := by
  match fuel with
  | 0 => simp [workItems] at hfuel
  | fuel + 1 =>
    have hwork : x.work + workItems xs ≤ fuel := by simpa [workItems] using hfuel
    have hsize : x.work ≤ fuel := Nat.le_trans (Nat.le_add_right ..) hwork
    match xs with
    | [] =>
      have hstops := stops_append (l.blank_line level) (c := ']') (by decide) rest
      have hfirst := value?_writeIn l (level + 1) hx hsize hstops
      -- Behind the last item the line of the closing bracket begins.
      have hend : skipGap (l.line level ++ ']' :: rest) = ']' :: rest := by
        rw [skipGap_append (l.blank_line level), skipGap_cons (by decide)]
      rw [writeItemsIn, items?, hfirst]
      simp only [hend]
      rfl
    | y :: ys =>
      have hy : y.isPlain = true ∧ allPlain ys = true := by simpa [allPlain] using hxs
      -- Behind an item there is a comma, where the first item stops, and the other items follow.
      have hrest := items?_writeIn l level hy.1 hy.2 (Nat.le_trans (Nat.le_add_left ..) hwork) rest
      have hstops : ∀ cs, Stops (',' :: cs) := stops_of_mem (by decide)
      have hfirst := value?_writeIn l (level + 1) hx hsize
        (hstops (l.line (level + 1) ++ y.writeIn l (level + 1) (writeItemsIn l level ys rest)))
      have hcomma : ∀ cs, skipGap (',' :: cs) = ',' :: cs := skipGap_cons (by decide)
      rw [writeItemsIn, items?, hfirst]
      simp only [hcomma, items?_append (l.blank_line _), hrest]
      rfl
termination_by fuel

/-- The text of entries is read as those entries. -/
theorem entries?_writeIn (l : Layout) (level : Nat) (k : String) {x : Json}
    {xs : List (String × Json)} (hx : x.isPlain = true) (hxs : allEntriesPlain xs = true)
    {fuel : Nat} (hfuel : workEntries ((k, x) :: xs) ≤ fuel) (rest : List Char) :
    entries? fuel (writeString k
        (':' :: (l.space ++ x.writeIn l (level + 1) (writeEntriesIn l level xs rest)))) =
      some ((rereadEntries ((k, x) :: xs)).map fun e => (some e.1, e.2), rest) := by
  match fuel with
  | 0 => simp [workEntries] at hfuel
  | fuel + 1 =>
    have hwork : x.work + workEntries xs ≤ fuel := by simpa [workEntries] using hfuel
    have hsize : x.work ≤ fuel := Nat.le_trans (Nat.le_add_right ..) hwork
    have hcolon : ∀ cs, skipGap (':' :: cs) = ':' :: cs := skipGap_cons (by decide)
    -- The key and the colon come first, and then the value, as an item does.
    rw [entries?, writeString, skipGap_cons (by decide)]
    simp only [string?_writeStringBody, hcolon, value?_append l.blank_space]
    match xs with
    | [] =>
      have hstops := stops_append (l.blank_line level) (c := '\x7d') (by decide) rest
      have hfirst := value?_writeIn l (level + 1) hx hsize hstops
      have hend : skipGap (l.line level ++ '\x7d' :: rest) = '\x7d' :: rest := by
        rw [skipGap_append (l.blank_line level), skipGap_cons (by decide)]
      simp only [writeEntriesIn, hfirst, hend]
      rfl
    | (k', y) :: ys =>
      have hy : y.isPlain = true ∧ allEntriesPlain ys = true := by simpa [allEntriesPlain] using hxs
      -- The comma ends the value, and the next entry begins on a line of its own.
      have hrest := entries?_writeIn l level k' hy.1 hy.2
        (Nat.le_trans (Nat.le_add_left ..) hwork) rest
      have hstops : ∀ cs, Stops (',' :: cs) := stops_of_mem (by decide)
      have hfirst := value?_writeIn l (level + 1) hx hsize
        (hstops (l.line (level + 1) ++ writeString k' (':' :: (l.space ++
          y.writeIn l (level + 1) (writeEntriesIn l level ys rest)))))
      have hcomma : ∀ cs, skipGap (',' :: cs) = ',' :: cs := skipGap_cons (by decide)
      simp only [writeEntriesIn, hfirst, hcomma, entries?_append (l.blank_line _), hrest]
      rfl
termination_by fuel

end

/-! ## §4 Documents -/

theorem length_lt_writeString (s : String) (rest : List Char) :
    rest.length < (writeString s rest).length := by
  have hbody : ∀ cs, rest.length ≤ (writeStringBody cs rest).length := by
    intro cs
    induction cs with
    | nil => simp [writeStringBody]
    | cons c cs ih =>
      rw [writeStringBody, List.length_append]
      omega
  have := hbody s.toList
  rw [writeString, List.length_cons]
  omega

mutual

/-- There are enough characters for all steps. -/
theorem work_le_writeIn (l : Layout) (level : Nat) {j : Json} (hplain : j.isPlain = true)
    (rest : List Char) : j.work + rest.length ≤ (j.writeIn l level rest).length := by
  match j with
  | .null => simp [work, writeIn, writeAtom]; omega
  | .bool true => simp [work, writeIn, writeAtom]; omega
  | .bool false => simp [work, writeIn, writeAtom]; omega
  | .int n =>
    obtain ⟨c, cs, hcs, -⟩ := intChars_head n []
    have hlength := congrArg List.length hcs
    simp only [List.append_nil, List.length_cons] at hlength
    simp only [work, writeIn, writeAtom, List.length_append]
    omega
  | .str s =>
    have := length_lt_writeString s rest
    simp only [work, writeIn, writeAtom]
    omega
  | .arr [] => simp [work, writeIn, workItems]; omega
  | .arr (x :: xs) =>
    have hx : x.isPlain = true ∧ allPlain xs = true := by simpa [isPlain, allPlain] using hplain
    -- The text of the first item ends where that of the others begins, brackets included.
    have hfirst := work_le_writeIn l (level + 1) hx.1 (writeItemsIn l level xs rest)
    have hrest := workItems_lt_writeItemsIn l level hx.2 rest
    simp only [work, writeIn, workItems, List.length_cons, List.length_append]
    omega
  | .obj [] => simp [work, writeIn, workEntries]; omega
  | .obj ((k, x) :: xs) =>
    have hx : x.isPlain = true ∧ allEntriesPlain xs = true := by
      simpa [isPlain, allEntriesPlain] using hplain
    have hkey := length_lt_writeString k
      (':' :: (l.space ++ x.writeIn l (level + 1) (writeEntriesIn l level xs rest)))
    have hfirst := work_le_writeIn l (level + 1) hx.1 (writeEntriesIn l level xs rest)
    have hrest := workEntries_lt_writeEntriesIn l level hx.2 rest
    simp only [work, writeIn, workEntries, List.length_cons, List.length_append] at hkey ⊢
    omega

theorem workItems_lt_writeItemsIn (l : Layout) (level : Nat) {xs : List Json}
    (hxs : allPlain xs = true) (rest : List Char) :
    workItems xs + rest.length < (writeItemsIn l level xs rest).length := by
  match xs with
  | [] =>
    simp only [workItems, writeItemsIn, List.length_append, List.length_cons]
    omega
  | x :: xs =>
    have hx : x.isPlain = true ∧ allPlain xs = true := by simpa [allPlain] using hxs
    have hfirst := work_le_writeIn l (level + 1) hx.1 (writeItemsIn l level xs rest)
    have hrest := workItems_lt_writeItemsIn l level hx.2 rest
    simp only [workItems, writeItemsIn, List.length_cons, List.length_append]
    omega

theorem workEntries_lt_writeEntriesIn (l : Layout) (level : Nat) {xs : List (String × Json)}
    (hxs : allEntriesPlain xs = true) (rest : List Char) :
    workEntries xs + rest.length < (writeEntriesIn l level xs rest).length := by
  match xs with
  | [] =>
    simp only [workEntries, writeEntriesIn, List.length_append, List.length_cons]
    omega
  | (k, x) :: xs =>
    have hx : x.isPlain = true ∧ allEntriesPlain xs = true := by simpa [allEntriesPlain] using hxs
    have hkey := length_lt_writeString k
      (':' :: (l.space ++ x.writeIn l (level + 1) (writeEntriesIn l level xs rest)))
    have hfirst := work_le_writeIn l (level + 1) hx.1 (writeEntriesIn l level xs rest)
    have hrest := workEntries_lt_writeEntriesIn l level hx.2 rest
    simp only [workEntries, writeEntriesIn, List.length_cons, List.length_append] at hkey ⊢
    omega

end

/-- What comes back of the text of a value in a document where `depth` levels are left. -/
def readBack (depth : Nat) (j : Json) : Json := j.reread.cutBelow depth

/-- What comes back of the text of a value in any layout. -/
theorem parse?_writeIn (l : Layout) {j : Json} (hplain : j.isPlain = true) :
    parse? (String.ofList (j.writeIn l 0 [])) = some (j.readBack maxDepth) := by
  have hwork : j.work ≤ 2 * (j.writeIn l 0 []).length + 2 := by
    have := work_le_writeIn l 0 hplain []
    rw [List.length_nil] at this
    omega
  have hstops : Stops [] := fun c hc => nomatch hc
  rw [parse?, parseChars?, String.toList_ofList, value?_writeIn l 0 hplain hwork hstops]
  rfl

/-- **Documents**: what comes back of the compact text of a value. -/
theorem parse?_compact {j : Json} (hplain : j.isPlain = true) :
    parse? j.compact = some (j.readBack maxDepth) := by
  rw [compact, ← writeIn_tight 0, parse?_writeIn .tight hplain]

/-- The same comes back of the pretty text. -/
theorem parse?_pretty {j : Json} (hplain : j.isPlain = true) :
    parse? j.pretty = some (j.readBack maxDepth) := by
  rw [pretty, ← writeIn_indented, parse?_writeIn .indented hplain]

/-! ## §5 What comes back -/

theorem rereadItems_eq (xs : List Json) : rereadItems xs = xs.map reread := by
  induction xs with
  | nil => rfl
  | cons x xs ih => rw [rereadItems, ih, List.map_cons]

theorem rereadEntries_eq (xs : List (String × Json)) :
    rereadEntries xs = xs.map fun e => (e.1, e.2.reread) := by
  induction xs with
  | nil => rfl
  | cons e xs ih => rw [rereadEntries, ih, List.map_cons]

theorem cutItems_eq (depth : Nat) (xs : List Json) :
    cutItems depth xs = xs.map (cutBelow depth) := by
  induction xs with
  | nil => rfl
  | cons x xs ih => rw [cutItems, ih, List.map_cons]

theorem cutEntries_eq (depth : Nat) (xs : List (String × Json)) :
    cutEntries depth xs = xs.map fun e => (e.1, cutBelow depth e.2) := by
  induction xs with
  | nil => rfl
  | cons e xs ih => rw [cutEntries, ih, List.map_cons]

theorem readBack_int (depth : Nat) (n : Int) : (Json.int n).readBack depth = rereadInt n := by
  rw [readBack, reread, rereadInt_eq]
  split
  · rfl
  · split <;> rfl

theorem readBack_arr (depth : Nat) (items : List Json) :
    (Json.arr items).readBack (depth + 1) = .arr (items.map (readBack depth)) := by
  rw [readBack, reread, cutBelow, rereadItems_eq, cutItems_eq, List.map_map]
  rfl

theorem readBack_obj (depth : Nat) (entries : List (String × Json)) :
    (Json.obj entries).readBack (depth + 1) =
      .obj (entries.map fun e => (e.1, e.2.readBack depth)) := by
  rw [readBack, reread, cutBelow, rereadEntries_eq, cutEntries_eq, List.map_map]
  rfl

/-- What is not absent does not come back as absent. -/
theorem readBack_arr_ne_null (depth : Nat) (items : List Json) :
    (Json.arr items).readBack depth ≠ .null := by
  cases depth <;> nofun

end SchemaGraph.Json
