/-
# A document is read back as it was written

`Doc.Proper` are the documents that values are written as: their strings have a text and
their numbers are integers.  Such a document is read from its own text, whatever follows
it, as long as that cannot belong to a number (`Proper.readsBack`).

The reader counts its steps down.  A value needs at most two for each of its characters:
one to enter a list or a record and one for each of what is in it, of which every one is
followed by a comma or a bracket.
-/
import Mathlib.Data.List.TakeDrop
import SlotRing.Wire.Written

namespace SlotRing.Wire

namespace Doc

/-- The documents that values are written as. -/
inductive Proper : Doc → Prop
  | null : Proper .null
  | bool (b : Bool) : Proper (.bool b)
  | int (i : Int) : Proper (.int i)
  | text (s : String) : Proper (.text s)
  | list {items : List Doc} : (∀ item ∈ items, Proper item) → Proper (.list items)
  | fields {fs : List (String × Doc)} : (∀ field ∈ fs, Proper field.2) → Proper (.fields fs)

/-! ## Strings -/

theorem hex?_digitChar :
    ∀ n < 0x20, hex? '0' '0' (Nat.digitChar (n / 16)) (Nat.digitChar (n % 16)) = some n := by
  decide

theorem readUnits?_escape (c : Char) (rest : List Char) :
    readUnits? (escape c ++ rest) = (readUnits? rest).map fun (units, plain, rest) =>
      (c.toNat :: units, isPlain c && plain, rest) := by
  by_cases plain : isPlain c = true
  · have plain' := plain
    simp only [isPlain, Bool.and_eq_true, decide_eq_true_eq, ne_eq] at plain'
    obtain ⟨⟨printing, noQuote⟩, noSlash⟩ := plain'
    have read : readUnits? (c :: rest) = (readUnits? rest).map fun (units, plain, rest) =>
        (c.toNat :: units, plain, rest) := by
      rw [readUnits?]
      · simp only [noSlash, decide_false, Bool.or_false, decide_eq_true_eq]
        rw [if_neg (by omega)]
        cases readUnits? rest <;> rfl
      all_goals simp_all
    simp only [escape, plain, if_true, List.cons_append, List.nil_append, read, Bool.true_and]
  · have special : c.toNat < 0x20 ∨ c = '"' ∨ c = '\\' := by
      simp only [isPlain, Bool.and_eq_true, decide_eq_true_eq, ne_eq, not_and] at plain
      by_contra none
      simp only [not_or] at none
      exact none.2.2 (by_contra (plain ⟨by omega, none.2.1⟩))
    -- seven of these have an escape of their own, the others are written by their number
    rw [Bool.not_eq_true] at plain
    simp only [escape, plain, Bool.false_eq_true, if_false, Bool.false_and]
    split
    case h_8 =>
      have read := hex?_digitChar c.toNat (by simp_all)
      simp only [List.cons_append, List.nil_append, readUnits?, read, Option.bind_eq_bind,
        Option.bind_some]
      cases readUnits? rest <;> rfl
    all_goals
      simp only [List.cons_append, List.nil_append]
      rw [readUnits?]
      · cases readUnits? rest <;> rfl
      · simp

theorem readUnits?_escaped (cs rest : List Char) :
    readUnits? (cs.flatMap escape ++ '"' :: rest) =
      some (cs.map Char.toNat, cs.all isPlain, rest) := by
  induction cs with
  | nil => simp [readUnits?]
  | cons c cs ih =>
    rw [List.flatMap_cons, List.append_assoc, readUnits?_escape, ih]
    rfl

theorem isHalf_toNat (c : Char) : isHighHalf c.toNat = false ∧ isLowHalf c.toNat = false := by
  have valid : c.toNat < 0xd800 ∨ 0xdfff < c.toNat ∧ c.toNat < 0x110000 := c.valid
  simp only [isHighHalf, isLowHalf, Bool.and_eq_false_iff, decide_eq_false_iff_not]
  omega

theorem joinHalves?_toNat (cs : List Char) : joinHalves? (cs.map Char.toNat) = some cs := by
  induction cs with
  | nil => rfl
  | cons c cs ih =>
    obtain ⟨noHigh, noLow⟩ := isHalf_toNat c
    cases cs with
    | nil => simp [joinHalves?, noHigh, noLow]
    | cons next cs =>
      rw [List.map_cons] at ih
      simp [joinHalves?, noHigh, noLow, ih]

theorem readLiteral?_chars (s : String) (rest : List Char) :
    ∃ more, (Literal.ofText s).chars ++ rest = '"' :: more ∧
      readLiteral? more = some (.ofText s, rest) := by
  refine ⟨s.toList.flatMap escape ++ '"' :: rest, ?_, ?_⟩
  · simp [Literal.chars, Literal.ofText]
  · simp [readLiteral?, readUnits?_escaped, joinHalves?_toNat, Literal.ofText]

/-! ## Numbers -/

def Ends (rest : List Char) : Prop :=
  ∀ c ∈ rest.head?, c = ',' ∨ c = ']' ∨ c = '\x7d'

theorem decimal_toDigits (n : Nat) : decimal (Nat.toDigits 10 n) = n := by
  have same : decimal (Nat.toDigits 10 n) = Nat.ofDigitChars 10 (Nat.toDigits 10 n) 0 := by
    simp only [decimal, Nat.ofDigitChars, Nat.mul_comm 10]
  rw [same, Nat.ofDigitChars_ten_toDigits]

theorem head?_digitChar : ∀ n < 10, n ≠ 0 → [Nat.digitChar n].head? ≠ some '0' := by
  decide

theorem head?_toDigits {n : Nat} (some : n ≠ 0) : (Nat.toDigits 10 n).head? ≠ .some '0' := by
  induction n using Nat.strongRecOn with
  | ind n ih =>
    by_cases small : n < 10
    · rw [Nat.toDigits_of_lt_base small]
      exact head?_digitChar n small some
    · obtain ⟨d, ds, digits⟩ := List.exists_cons_of_ne_nil
        (Nat.toDigits_ne_nil : Nat.toDigits 10 (n / 10) ≠ [])
      have front := ih (n / 10) (by omega) (by omega)
      rw [Nat.toDigits_of_base_le (by decide) (by omega), digits]
      rwa [digits] at front

theorem isCanonical_toDigits (n : Nat) : isCanonical (Nat.toDigits 10 n) = true := by
  by_cases zero : n = 0
  · subst zero
    decide
  · simp [isCanonical, head?_toDigits zero]

theorem all_isDigit_toDigits (n : Nat) : ∀ c ∈ Nat.toDigits 10 n, c.isDigit = true :=
  fun _ mem => Nat.isDigit_of_mem_toDigits (by decide) (by decide) mem

theorem digits?_append {ds rest : List Char} (digits : ∀ c ∈ ds, c.isDigit = true)
    (some : ds ≠ []) (ends : Ends rest) : digits? (ds ++ rest) = .some (ds, rest) := by
  have stops : rest.takeWhile Char.isDigit = [] ∧ rest.dropWhile Char.isDigit = rest := by
    cases rest with
    | nil => exact ⟨rfl, rfl⟩
    | cons c rest =>
      have noDigit : c.isDigit = false := by
        obtain rfl | rfl | rfl := ends c rfl <;> rfl
      simp [noDigit]
  rw [digits?, List.takeWhile_append_of_pos digits, List.dropWhile_append_of_pos digits,
    stops.1, stops.2, List.append_nil]
  cases ds with
  | nil => exact absurd rfl some
  | cons d ds => rfl

theorem fraction?_of_ends {rest : List Char} (ends : Ends rest) :
    fraction? rest = some ([], rest) := by
  cases rest with
  | nil => rfl
  | cons c rest => obtain rfl | rfl | rfl := ends c rfl <;> rfl

theorem exponent?_of_ends {rest : List Char} (ends : Ends rest) :
    exponent? rest = some ([], rest) := by
  cases rest with
  | nil => rfl
  | cons c rest => obtain rfl | rfl | rfl := ends c rfl <;> rfl

theorem readNumber?_toDigits {rest : List Char} (ends : Ends rest) (negative : Bool) (n : Nat)
    (signed : negative = true → n ≠ 0) :
    readNumber? negative (Nat.toDigits 10 n ++ rest) =
      some (.int (if negative then -n else n), rest) := by
  simpa [readNumber?, digits?_append (all_isDigit_toDigits n) Nat.toDigits_ne_nil ends,
    isCanonical_toDigits, fraction?_of_ends ends, exponent?_of_ends ends, decimal_toDigits]
    using signed

/-! ## Values -/

theorem isBlank_of_isDigit {c : Char} (digit : c.isDigit = true) : isBlank c = false := by
  rw [← Bool.not_eq_true]
  intro blank
  simp only [isBlank, Bool.or_eq_true, decide_eq_true_eq] at blank
  obtain ((rfl | rfl) | rfl) | rfl := blank <;> cases digit

theorem skipBlanks_cons {c : Char} {cs : List Char} (noBlank : isBlank c = false) :
    skipBlanks (c :: cs) = c :: cs := by
  rw [skipBlanks, List.dropWhile_cons_of_neg]
  simp [noBlank]

/-- What a value is written with begins with something that is neither a blank nor a closing
bracket. -/
theorem exists_chars_eq_cons {doc : Doc} (proper : doc.Proper) :
    ∃ c cs, doc.chars = c :: cs ∧ isBlank c = false ∧ c ≠ ']' := by
  cases proper with
  | null => exact ⟨_, _, rfl, rfl, by decide⟩
  | bool b => cases b <;> exact ⟨_, _, rfl, rfl, by decide⟩
  | int i =>
    cases i with
    | ofNat n =>
      obtain ⟨d, ds, digits⟩ := List.exists_cons_of_ne_nil
        (Nat.toDigits_ne_nil : Nat.toDigits 10 n ≠ [])
      have digit : d.isDigit = true := all_isDigit_toDigits n d (by simp [digits])
      refine ⟨d, ds, digits, isBlank_of_isDigit digit, ?_⟩
      rintro rfl
      cases digit
    | negSucc n => exact ⟨_, _, rfl, rfl, by decide⟩
  | text s => exact ⟨_, _, rfl, rfl, by decide⟩
  | list items => exact ⟨_, _, rfl, rfl, by decide⟩
  | fields fs => exact ⟨_, _, rfl, rfl, by decide⟩

/-- A value is read from its own text, in steps of which there are more than two for each
character, and what follows is left over. -/
def ReadsBack (doc : Doc) : Prop :=
  ∀ fuel rest, 2 * doc.chars.length < fuel → Ends rest →
    readValue? fuel (doc.chars ++ rest) = some (doc, rest)

theorem readItems?_itemChars {items : List Doc} (some : items ≠ [])
    (back : ∀ item ∈ items, item.ReadsBack) :
    ∀ fuel rest, 2 * (itemChars items).length + 1 < fuel →
      readItems? fuel (itemChars items ++ ']' :: rest) = .some (items, rest) := by
  induction items with
  | nil => exact absurd rfl some
  | cons item items ih =>
    intro fuel rest enough
    obtain ⟨fuel, rfl⟩ : ∃ n, fuel = n + 1 := ⟨fuel - 1, by omega⟩
    cases items with
    | nil =>
      have read := back item (by simp) fuel (']' :: rest) (by
        simp only [itemChars] at enough
        omega) (by simp [Ends])
      simp [itemChars, readItems?, read, skipBlanks, isBlank]
    | cons next items =>
      simp only [itemChars, List.length_append, List.length_cons] at enough ih ⊢
      have read := back item (by simp) fuel (',' :: (itemChars (next :: items) ++ ']' :: rest))
        (by omega) (by simp [Ends])
      have more := ih (by simp) (fun item mem => back item (List.mem_cons_of_mem _ mem))
        fuel rest (by omega)
      rw [List.append_assoc, List.cons_append]
      simp [readItems?, read, skipBlanks, isBlank, more]

def written (fs : List (String × Doc)) : List (Literal × Doc) :=
  fs.map fun (name, value) => (.ofText name, value)

theorem written_cons (name : String) (value : Doc) (fs : List (String × Doc)) :
    written ((name, value) :: fs) = (.ofText name, value) :: written fs := rfl

theorem readFields?_fieldChars {fs : List (String × Doc)} (some : fs ≠ [])
    (back : ∀ field ∈ fs, field.2.ReadsBack) :
    ∀ fuel rest, 2 * (fieldChars (written fs)).length + 1 < fuel →
      readFields? fuel (fieldChars (written fs) ++ '\x7d' :: rest) = .some (written fs, rest) := by
  induction fs with
  | nil => exact absurd rfl some
  | cons field fs ih =>
    intro fuel rest enough
    obtain ⟨name, value⟩ := field
    obtain ⟨fuel, rfl⟩ : ∃ n, fuel = n + 1 := ⟨fuel - 1, by omega⟩
    cases fs with
    | nil =>
      obtain ⟨more, quoted, text⟩ :=
        readLiteral?_chars name (':' :: (value.chars ++ '\x7d' :: rest))
      have read := back (name, value) (by simp) fuel ('\x7d' :: rest) (by
        simp only [written, List.map_cons, List.map_nil, fieldChars, List.length_append,
          List.length_cons] at enough
        simp only
        omega) (by simp [Ends])
      simp only [written, List.map_cons, List.map_nil, fieldChars, List.append_assoc,
        List.cons_append, quoted, readFields?]
      simp [skipBlanks, isBlank, text, read]
    | cons next fs =>
      have split : fieldChars (written ((name, value) :: next :: fs)) =
          (Literal.ofText name).chars ++ ':' :: (value.chars ++
            ',' :: fieldChars (written (next :: fs))) := rfl
      obtain ⟨more, quoted, text⟩ := readLiteral?_chars name (':' :: (value.chars ++
        ',' :: (fieldChars (written (next :: fs)) ++ '\x7d' :: rest)))
      rw [split] at enough ⊢
      simp only [List.length_append, List.length_cons] at enough
      have read := back (name, value) (by simp) fuel
        (',' :: (fieldChars (written (next :: fs)) ++ '\x7d' :: rest))
        (by simp only; omega) (by simp [Ends])
      have others := ih (by simp) (fun field mem => back field (List.mem_cons_of_mem _ mem))
        fuel rest (by omega)
      simp only [List.append_assoc, List.cons_append, quoted, readFields?]
      simp [skipBlanks, isBlank, text, read, others, written_cons]

/-! ### One lemma for each kind of value -/

theorem readsBack_int (i : Int) : (Doc.int i).ReadsBack := by
  intro fuel rest enough ends
  obtain ⟨fuel, rfl⟩ : ∃ n, fuel = n + 1 := ⟨fuel - 1, by omega⟩
  cases i with
  | ofNat n =>
    have read := readNumber?_toDigits ends false n (by simp)
    obtain ⟨d, ds, digits⟩ := List.exists_cons_of_ne_nil
      (Nat.toDigits_ne_nil : Nat.toDigits 10 n ≠ [])
    have digit : d.isDigit = true := all_isDigit_toDigits n d (by simp [digits])
    have shown : (Doc.int (.ofNat n)).chars = d :: ds := digits
    rw [digits, List.cons_append] at read
    rw [shown, List.cons_append, readValue?, skipBlanks_cons (isBlank_of_isDigit digit)]
    split
    case h_8 => simpa using read
    all_goals
      next first =>
        cases first
        cases digit
  | negSucc n =>
    have read := readNumber?_toDigits ends true (n + 1) (by simp)
    simp [chars, intChars, readValue?, skipBlanks, isBlank, read, Int.negSucc_eq]

theorem readsBack_text (s : String) : (Doc.text s).ReadsBack := by
  intro fuel rest enough ends
  obtain ⟨fuel, rfl⟩ : ∃ n, fuel = n + 1 := ⟨fuel - 1, by omega⟩
  obtain ⟨more, quoted, read⟩ := readLiteral?_chars s rest
  simp only [Doc.text, chars, quoted, readValue?]
  simp [skipBlanks, isBlank, read]

theorem readsBack_list {items : List Doc} (proper : ∀ item ∈ items, item.Proper)
    (back : ∀ item ∈ items, item.ReadsBack) : (Doc.list items).ReadsBack := by
  intro fuel rest enough ends
  obtain ⟨fuel, rfl⟩ : ∃ n, fuel = n + 1 := ⟨fuel - 1, by omega⟩
  cases items with
  | nil => simp [chars, itemChars, readValue?, skipBlanks, isBlank]
  | cons item items =>
    have read := readItems?_itemChars (List.cons_ne_nil item items) back fuel rest (by
      simp only [chars, List.length_cons, List.length_append] at enough
      omega)
    obtain ⟨c, cs, first, noBlank, noBracket⟩ : ∃ c cs,
        itemChars (item :: items) = c :: cs ∧ isBlank c = false ∧ c ≠ ']' := by
      obtain ⟨c, cs, first, which⟩ := exists_chars_eq_cons (proper item (by simp))
      cases items with
      | nil => exact ⟨c, cs, first, which⟩
      | cons next items => exact ⟨c, _, by rw [itemChars, first]; rfl, which⟩
    rw [first, List.cons_append] at read
    simp only [chars, first, List.cons_append, List.append_assoc, List.nil_append, readValue?,
      skipBlanks_cons (show isBlank '[' = false from rfl), skipBlanks_cons noBlank]
    split
    · next same =>
      cases same
      exact absurd rfl noBracket
    · rw [read]
      rfl

theorem readsBack_fields {fs : List (String × Doc)} (back : ∀ field ∈ fs, field.2.ReadsBack) :
    (Doc.fields fs).ReadsBack := by
  intro fuel rest enough ends
  obtain ⟨fuel, rfl⟩ : ∃ n, fuel = n + 1 := ⟨fuel - 1, by omega⟩
  cases fs with
  | nil => simp [Doc.fields, chars, fieldChars, readValue?, skipBlanks, isBlank]
  | cons field fs =>
    have shown : (Doc.fields (field :: fs)).chars =
        '\x7b' :: (fieldChars (written (field :: fs)) ++ ['\x7d']) := rfl
    have read := readFields?_fieldChars (List.cons_ne_nil field fs) back fuel rest (by
      simp only [shown, List.length_cons, List.length_append] at enough
      omega)
    obtain ⟨cs, first⟩ : ∃ cs, fieldChars (written (field :: fs)) = '"' :: cs := by
      cases fs with
      | nil => exact ⟨_, rfl⟩
      | cons next fs => exact ⟨_, rfl⟩
    rw [first, List.cons_append] at read
    simp only [shown, first, List.cons_append, List.append_assoc, List.nil_append, readValue?,
      skipBlanks_cons (show isBlank '\x7b' = false from rfl),
      skipBlanks_cons (show isBlank '"' = false from rfl)]
    split
    · next same => cases same
    · rw [read]
      rfl

/-- What a value is written as is read from its own text, also with more text behind it. -/
theorem Proper.readsBack {doc : Doc} (proper : doc.Proper) : doc.ReadsBack := by
  induction proper with
  | null =>
    intro fuel rest enough ends
    obtain ⟨fuel, rfl⟩ : ∃ n, fuel = n + 1 := ⟨fuel - 1, by omega⟩
    rfl
  | bool b =>
    intro fuel rest enough ends
    obtain ⟨fuel, rfl⟩ : ∃ n, fuel = n + 1 := ⟨fuel - 1, by omega⟩
    cases b <;> rfl
  | int i => exact readsBack_int i
  | text s => exact readsBack_text s
  | list proper back => exact readsBack_list proper back
  | fields _ back => exact readsBack_fields back

theorem read?_write {doc : Doc} (proper : doc.Proper) : read? doc.write = some doc := by
  have read := proper.readsBack (2 * doc.chars.length + 2) [] (by omega) (by simp [Ends])
  rw [List.append_nil] at read
  have chars : doc.write.toList = doc.chars := String.toList_ofList
  simp only [read?, chars, Option.bind_eq_bind]
  rw [read, Option.bind_some]
  exact if_pos rfl

end Doc

end SlotRing.Wire
