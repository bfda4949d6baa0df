/-
# Codecs that keep what they write

`Codec.Keeps c fits kept` is the law of a codec: a value that `fits` is read back from what
is written of it, as `kept` says, and whatever is read at all fits and is kept as it is.
`fits` says that numbers are in the range of their kind; `kept` is the identity for all
that does not hold a ring.  From the second half it follows that a value that was read once
is read again from its own text, whatever the text was like that it came from.

There is one lemma for each combinator.  For records there are three about the fields
asked for, which stand in the record in just that order.
-/
import Mathlib.Data.List.Nodup
import SlotRing.Proofs.Tables
import SlotRing.Proofs.Wire.Reading

namespace SlotRing.Wire

variable {α β κ : Type}

/-- What is written reads as `kept` says, and what is read fits and is kept as it is. -/
structure Codec.Keeps (c : Codec α) (fits : α → Prop) (kept : α → α) : Prop where
  proper : ∀ a, (c.encode a).Proper
  read : ∀ {a}, fits a → c.decode? (c.encode a) = some (kept a)
  image : ∀ {doc a}, c.decode? doc = some a → fits a ∧ kept a = a

/-- A key that fits is read back from what is written of it, and what is read fits. -/
structure Codec.KeyCodec.Keeps (k : KeyCodec κ) (fits : κ → Prop) : Prop where
  read : ∀ {a}, fits a → k.decode? (.ofText (k.encode a)) = some a
  image : ∀ {name a}, k.decode? name = some a → fits a

/-! ## Items that are read one by one -/

theorem mapM_map_eq_some {γ : Type} {f : α → Option β} {g : γ → α} {h : γ → β} {cs : List γ}
    (read : ∀ c ∈ cs, f (g c) = some (h c)) : (cs.map g).mapM f = some (cs.map h) := by
  induction cs with
  | nil => rfl
  | cons c cs ih =>
    have rest := ih fun c mem => read c (List.mem_cons_of_mem _ mem)
    simp [List.mapM_cons, read c (by simp), rest]

theorem exists_of_mem_mapM {f : α → Option β} {as : List α} {bs : List β}
    (read : as.mapM f = some bs) : ∀ b ∈ bs, ∃ a ∈ as, f a = some b := by
  induction as generalizing bs with
  | nil =>
    cases read
    intro b mem
    cases mem
  | cons a as ih =>
    simp only [List.mapM_cons, Option.bind_eq_bind, Option.bind_eq_some_iff, Option.pure_def,
      Option.some.injEq] at read
    obtain ⟨first, here, rest, there, rfl⟩ := read
    intro b mem
    cases mem with
    | head => exact ⟨a, by simp, here⟩
    | tail _ mem =>
      obtain ⟨a, listed, found⟩ := ih there b mem
      exact ⟨a, List.mem_cons_of_mem _ listed, found⟩

/-! ## Records -/

namespace Doc

section

variable {fs : List (String × Doc)}

theorem namedFields?_written (fs : List (String × Doc)) : namedFields? (written fs) = some fs := by
  induction fs with
  | nil => rfl
  | cons field fs ih =>
    rw [namedFields?] at ih
    rw [namedFields?, written_cons, List.mapM_cons, ih]
    rfl

theorem filter_name_eq (distinct : (fs.map Prod.fst).Nodup) {field : String × Doc}
    (mem : field ∈ fs) : fs.filter (·.1 == field.1) = [field] := by
  induction fs with
  | nil => cases mem
  | cons first fs ih =>
    obtain ⟨absent, distinct⟩ := List.nodup_cons.mp distinct
    cases mem with
    | head =>
      have none : fs.filter (·.1 == field.1) = [] := by
        rw [List.filter_eq_nil_iff]
        intro other listed
        simpa using fun same : other.1 = field.1 => absent (same ▸ List.mem_map_of_mem listed)
      rw [List.filter_cons_of_pos (by simp), none]
    | tail _ mem =>
      have other : ¬ (first.1 == field.1) = true := by
        simpa using fun same : first.1 = field.1 => absent (same ▸ List.mem_map_of_mem mem)
      rw [List.filter_cons, if_neg other, ih distinct mem]

theorem select?_names (distinct : (fs.map Prod.fst).Nodup) :
    select? (fs.map Prod.fst) fs = some (fs.map fun field => some field.2) :=
  mapM_map_eq_some fun field mem => by rw [filter_name_eq distinct mem]

theorem fields?_fields (fs : List (String × Doc)) (distinct : (fs.map Prod.fst).Nodup) :
    (Doc.fields fs).fields? (fs.map Prod.fst) = some (fs.map fun field => some field.2) := by
  show (namedFields? (written fs)).bind (select? _) = _
  rw [namedFields?_written]
  exact select?_names distinct

theorem leadingFields?_fields (fs : List (String × Doc)) (distinct : (fs.map Prod.fst).Nodup) :
    (Doc.fields fs).leadingFields? (fs.map Prod.fst) =
      some (fs.map fun field => some field.2) :=
  fields?_fields fs distinct

theorem exactFields?_fields (fs : List (String × Doc)) (distinct : (fs.map Prod.fst).Nodup) :
    (Doc.fields fs).exactFields? (fs.map Prod.fst) =
      some (fs.map fun field => some field.2) := by
  have known : ∀ field ∈ fs, (fs.map Prod.fst).contains field.1 = true :=
    fun field mem => List.contains_iff_mem.mpr (List.mem_map_of_mem mem)
  show (namedFields? (written fs)).bind _ = _
  rw [namedFields?_written, Option.bind_some, ← select?_names distinct]
  exact if_pos (List.all_eq_true.mpr known)

end

end Doc

namespace Codec

section

variable {c : Codec α} {fits : α → Prop} {kept : α → α}

theorem required_some (c : Codec α) (doc : Doc) : c.required (some doc) = c.decode? doc := rfl

/-! ## One lemma for each combinator -/

namespace Keeps

theorem of_required (keeps : Keeps c fits kept) {field : Option Doc} {a : α}
    (read : c.required field = some a) : fits a ∧ kept a = a := by
  simp only [Codec.required, Option.bind_eq_bind, Option.bind_eq_some_iff] at read
  obtain ⟨doc, -, read⟩ := read
  exact keeps.image read

theorem of_withDefault (keeps : Keeps c fits kept) {unset : α}
    (fine : fits unset ∧ kept unset = unset) {field : Option Doc} {a : α}
    (read : c.withDefault unset field = some a) : fits a ∧ kept a = a := by
  cases field with
  | none =>
    cases read
    exact fine
  | some doc => exact keeps.image read

theorem required (keeps : Keeps c fits id) {a : α} (fine : fits a) :
    c.required (some (c.encode a)) = some a :=
  keeps.read fine

theorem withDefault (keeps : Keeps c fits id) (unset : α) {a : α} (fine : fits a) :
    c.withDefault unset (some (c.encode a)) = some a :=
  keeps.read fine

theorem read?_write (keeps : Keeps c fits kept) {a : α} (fine : fits a) :
    c.read? (c.write a) = some (kept a) := by
  rw [Codec.read?, Codec.write, Doc.read?_write (keeps.proper a)]
  exact keeps.read fine

/-- What was read from any text fits, and it is read again from its own text. -/
theorem read?_write_of_read? (keeps : Keeps c fits kept) {s : String} {a : α}
    (read : c.read? s = some a) : fits a ∧ c.read? (c.write a) = some a := by
  obtain ⟨doc, -, found⟩ := Option.bind_eq_some_iff.mp read
  obtain ⟨fine, same⟩ := keeps.image found
  rw [keeps.read?_write fine, same]
  exact ⟨fine, rfl⟩

end Keeps

theorem keeps_below (limit : Nat) : (below limit).Keeps (· < limit) id where
  proper n := .int n
  read fine := if_pos fine
  image {doc a} read := by
    simp only [below] at read
    split at read
    · split at read
      · next fine =>
        cases read
        exact ⟨fine, rfl⟩
      · cases read
    · cases read

theorem keeps_byte : byte.Keeps (fun _ => True) id where
  proper b := .int b.toNat
  read {b} _ := by
    have read := (keeps_below 256).read b.toNat_lt
    show ((below 256).decode? ((below 256).encode b.toNat)).map UInt8.ofNat = some b
    rw [read, Option.map_some, id, UInt8.ofNat_toNat]
  image _ := ⟨trivial, rfl⟩

theorem keeps_bool : bool.Keeps (fun _ => True) id where
  proper b := .bool b
  read _ := rfl
  image _ := ⟨trivial, rfl⟩

theorem keeps_text : text.Keeps (fun _ => True) id where
  proper s := .text s
  read _ := rfl
  image _ := ⟨trivial, rfl⟩

theorem keeps_list (keeps : Keeps c fits kept) :
    (list c).Keeps (fun as => ∀ a ∈ as, fits a) (List.map kept) where
  proper as := .list fun item mem => by
    obtain ⟨a, -, rfl⟩ := List.mem_map.mp mem
    exact keeps.proper a
  read fine := mapM_map_eq_some fun a mem => keeps.read (fine a mem)
  image {doc as} read := by
    simp only [list] at read
    split at read
    · next items =>
      have images : ∀ a ∈ as, fits a ∧ kept a = a := by
        intro a mem
        obtain ⟨item, -, found⟩ := exists_of_mem_mapM read a mem
        exact keeps.image found
      exact ⟨fun a mem => (images a mem).1,
        (List.map_congr_left fun a mem => (images a mem).2).trans (List.map_id as)⟩
    · cases read

theorem decode?_optional (c : Codec α) {doc : Doc} (notNull : doc ≠ .null) :
    (optional c).decode? doc = some <$> c.decode? doc := by
  cases doc with
  | null => exact absurd rfl notNull
  | _ => rfl

/-- Null stands for nothing, so that nothing else may be written as null. -/
theorem keeps_optional (keeps : Keeps c fits kept) (notNull : ∀ a, c.encode a ≠ .null) :
    (optional c).Keeps (fun o => ∀ a ∈ o, fits a) (Option.map kept) where
  proper o := by
    cases o with
    | none => exact .null
    | some a => exact keeps.proper a
  read {o} fine := by
    cases o with
    | none => rfl
    | some a =>
      show (optional c).decode? (c.encode a) = some (some (kept a))
      rw [decode?_optional c (notNull a), keeps.read (fine a rfl)]
      rfl
  image {doc o} read := by
    by_cases null : doc = .null
    · subst null
      cases read
      exact ⟨by simp, rfl⟩
    · rw [decode?_optional c null] at read
      obtain ⟨a, found, rfl⟩ := Option.map_eq_some_iff.mp read
      obtain ⟨fine, same⟩ := keeps.image found
      refine ⟨fun b mem => ?_, ?_⟩
      · cases mem
        exact fine
      · rw [Option.map_some, same]

theorem Keeps.congr {fits' : α → Prop} {kept' : α → α} (keeps : Keeps c fits kept)
    (fine : ∀ a, fits a ↔ fits' a) (same : ∀ a, kept a = kept' a) : Keeps c fits' kept' := by
  obtain rfl : fits = fits' := funext fun a => propext (fine a)
  obtain rfl : kept = kept' := funext same
  exact keeps

/-! ### Maps -/

theorem keeps_textKey : textKey.Keeps fun _ => True where
  read _ := rfl
  image _ := trivial

theorem isPlain_of_isDigit {c : Char} (digit : c.isDigit = true) : isPlain c = true := by
  have bounds : 48 ≤ c.toNat ∧ c.toNat ≤ 57 := Char.isDigit_iff_toNat.mp digit
  simp only [isPlain, Bool.and_eq_true, decide_eq_true_eq, ne_eq]
  refine ⟨⟨by omega, ?_⟩, ?_⟩
  · rintro rfl
    cases digit
  · rintro rfl
    cases digit

theorem keeps_word32Key : word32Key.Keeps (· < UInt32.size) where
  read {n} fine := by
    have plain : (Nat.toDigits 10 n).all isPlain = true :=
      List.all_eq_true.mpr fun c mem => isPlain_of_isDigit (Doc.all_isDigit_toDigits n c mem)
    simpa [word32Key, Literal.ofText, plain, Doc.isCanonical_toDigits, Doc.decimal_toDigits, fine]
      using Doc.all_isDigit_toDigits n
  image {name n} read := by
    simp only [word32Key, Option.bind_eq_bind, Option.bind_eq_some_iff] at read
    obtain ⟨s, -, read⟩ := read
    split at read
    · next fine =>
      cases read
      simp only [Bool.and_eq_true, decide_eq_true_eq] at fine
      exact fine.2
    · cases read

section

variable [Ord κ] [Std.TransOrd κ] [Std.LawfulEqOrd κ]

theorem ofList_toList (m : Std.ExtTreeMap κ α) : Std.ExtTreeMap.ofList m.toList = m := by
  refine Std.ExtTreeMap.ext_getElem? fun k => Option.ext fun a => ?_
  rw [getElem?_ofList_iff Std.ExtTreeMap.distinct_keys_toList,
    Std.ExtTreeMap.mem_toList_iff_getElem?_eq_some]

theorem mem_of_getElem?_ofList {rows : List (κ × α)} {k : κ} {a : α}
    (found : (Std.ExtTreeMap.ofList rows)[k]? = some a) : (k, a) ∈ rows := by
  classical
  rw [Std.ExtTreeMap.ofList_eq_insertMany_empty, Std.ExtTreeMap.getElem?_insertMany_list,
    Std.ExtTreeMap.getElem?_empty, Option.or_none,
    List.findSomeRev?_eq_findSome?_reverse] at found
  obtain ⟨row, mem, hit⟩ := List.exists_of_findSome?_eq_some found
  simp only [Option.ite_none_right_eq_some, Std.LawfulEqCmp.compare_eq_iff_eq] at hit
  obtain ⟨rfl, same⟩ := hit
  cases same
  exact List.mem_reverse.mp mem

theorem keeps_map {key : KeyCodec κ} {value : Codec α} {fitsKey : κ → Prop}
    (keepsKey : key.Keeps fitsKey) (keeps : Keeps value fits id) :
    (map key value).Keeps (fun m => ∀ k a, m[k]? = some a → fitsKey k ∧ fits a) id where
  proper m := .fields fun field mem => by
    obtain ⟨row, -, rfl⟩ := List.mem_map.mp mem
    exact keeps.proper row.2
  read {m} fine := by
    have rows : (m.toList.map fun row =>
          (Literal.ofText (key.encode row.1), value.encode row.2)).mapM
          (fun field => do return (← key.decode? field.1, ← value.decode? field.2)) =
        some (m.toList.map id) := by
      refine mapM_map_eq_some fun row mem => ?_
      obtain ⟨fineKey, fine⟩ :=
        fine row.1 row.2 (Std.ExtTreeMap.mem_toList_iff_getElem?_eq_some.mp mem)
      simp [keepsKey.read fineKey, keeps.read fine]
    rw [List.map_id] at rows
    simp only [map, Doc.fields, List.map_map, Function.comp_def]
    rw [rows]
    exact congrArg some (ofList_toList m)
  image {doc m} read := by
    simp only [map] at read
    split at read
    · next fields =>
      simp only [Option.bind_eq_bind, Option.bind_eq_some_iff] at read
      obtain ⟨rows, read, made⟩ := read
      cases made
      refine ⟨fun k a found => ?_, rfl⟩
      obtain ⟨field, -, found⟩ := exists_of_mem_mapM read (k, a) (mem_of_getElem?_ofList found)
      simp only [Option.bind_eq_some_iff] at found
      obtain ⟨k', readKey, a', readValue, same⟩ := found
      cases same
      exact ⟨keepsKey.image readKey, (keeps.image readValue).1⟩
    · cases read

end

end

end Codec

end SlotRing.Wire
