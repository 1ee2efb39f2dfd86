import ConfigHeader.Proofs.Json.Nesting
import ConfigHeader.Proofs.Json.Numerals
import ConfigHeader.Proofs.Json.Texts

/-! Written values are read back. A value that a text was read as is not nested too deep and has its
keys in order, and every such value is read back from the text that is written for it. -/
namespace ConfigHeader.Json

/-- Nothing that goes on with a value follows. -/
def EndsValue (rest : List Char) : Prop :=
  ∀ char ∈ rest.head?, isSpace char = true ∨ char ∈ [',', ']', '\x7d']

theorem EndsValue.endsNumeral {rest : List Char} (ends : EndsValue rest) : EndsNumeral rest := by
  intro char first
  rcases ends char first with space | mark
  · simp only [isSpace, Bool.or_eq_true, beq_iff_eq] at space
    rcases space with ((rfl | rfl) | rfl) | rfl <;> decide
  · simp only [List.mem_cons, List.not_mem_nil, or_false] at mark
    rcases mark with rfl | rfl | rfl <;> decide

/-- The characters are white space, which the readers pass over. -/
def IsSpacing (chars : List Char) : Prop :=
  ∀ char ∈ chars, isSpace char = true

theorem isSpacing_nil : IsSpacing [] := by
  simp [IsSpacing]

theorem skipSpace_append {space : List Char} (spacing : IsSpacing space) (rest : List Char) :
    skipSpace (space ++ rest) = skipSpace rest :=
  List.dropWhile_append_of_pos spacing

theorem skipSpace_cons {char : Char} (solid : isSpace char = false) (rest : List Char) :
    skipSpace (char :: rest) = char :: rest := by
  rw [skipSpace, List.dropWhile_cons_of_neg (by simp [solid])]

/-- The character ends an array or an object. -/
def Closes (close : Char) : Prop :=
  close = ']' ∨ close = '\x7d'

theorem Closes.solid {close : Char} (closes : Closes close) : isSpace close = false := by
  rcases closes with rfl | rfl <;> decide

theorem Closes.ne_comma {close : Char} (closes : Closes close) : close ≠ ',' := by
  rcases closes with rfl | rfl <;> decide

/-- Further items of a sequence, each behind a comma, and its end behind white space. -/
def writtenTail {α : Type} (write : α → List Char) (space : List Char) (close : Char) :
    List α → List Char
  | [] => space ++ [close]
  | item :: items => ',' :: (write item ++ writtenTail write space close items)

/-- A field of an object. -/
def writeField (field : String × Json) : List Char :=
  quote field.1 ++ ':' :: field.2.write

theorem writeItems_eq (items : List Json) : writeItems items = writtenTail write [] ']' items := by
  induction items with
  | nil => rfl
  | cons item items ih => rw [writeItems, writtenTail, ih]

theorem writeFields_eq (fields : List (String × Json)) :
    writeFields fields = writtenTail writeField [] '\x7d' fields := by
  induction fields with
  | nil => rfl
  | cons field fields ih => simp [writeFields, writtenTail, writeField, ih]

section Sequence

variable {α : Type} {item : List Char → Option (α × List Char)} {write : α → List Char}
  {space front : List Char} {close : Char} {first : α} {items : List α}

/-- The reader takes each of the items from what is written for it. -/
def ReadsAll (item : List Char → Option (α × List Char)) (write : α → List Char)
    (items : List α) : Prop :=
  ∀ value ∈ items, ∀ rest, EndsValue rest → item (write value ++ rest) = some (value, rest)

theorem length_lt_writtenTail (write : α → List Char) (space : List Char) (close : Char)
    (items : List α) : items.length < (writtenTail write space close items).length := by
  induction items with
  | nil => simp [writtenTail]
  | cons value items ih =>
    simp only [writtenTail, List.length_cons, List.length_append]
    omega

theorem endsValue_writtenTail (closes : Closes close) (spacing : IsSpacing space)
    (write : α → List Char) (items : List α) (rest : List Char) :
    EndsValue (writtenTail write space close items ++ rest) := by
  intro char begins
  cases items with
  | nil =>
    cases space with
    | nil =>
      obtain rfl : close = char := by simpa [writtenTail] using begins
      rcases closes with rfl | rfl <;> simp
    | cons blank space =>
      obtain rfl : blank = char := by simpa [writtenTail] using begins
      exact .inl (spacing blank List.mem_cons_self)
  | cons value items =>
    obtain rfl : ',' = char := by simpa [writtenTail] using begins
    simp

theorem readItems?_written (closes : Closes close) (spacing : IsSpacing space)
    (read : ∀ rest, EndsValue rest → item (front ++ rest) = some (first, rest))
    (reads : ReadsAll item write items) {room : ℕ} (enough : items.length < room)
    (rest : List Char) :
    readItems? item close room (front ++ (writtenTail write space close items ++ rest)) =
      some (first :: items, rest) := by
  induction items generalizing first front room with
  | nil =>
    obtain ⟨room, rfl⟩ := Nat.exists_eq_add_of_le' (Nat.one_le_of_lt enough)
    have here := read _ (endsValue_writtenTail closes spacing write [] rest)
    rw [readItems?, here]
    simp only [writtenTail, List.append_assoc, skipSpace_append spacing, List.cons_append,
      List.nil_append, skipSpace_cons closes.solid, if_true]
  | cons second items ih =>
    obtain ⟨room, rfl⟩ := Nat.exists_eq_add_of_le' (Nat.one_le_of_lt enough)
    have here := read _ (endsValue_writtenTail closes spacing write (second :: items) rest)
    have inside : ReadsAll item write items :=
      fun value member => reads value (List.mem_cons_of_mem _ member)
    have later := @ih (write second) second (reads second List.mem_cons_self) inside room
      (Nat.lt_of_succ_lt_succ enough)
    rw [readItems?, here]
    simp only [writtenTail, List.cons_append, List.append_assoc,
      skipSpace_cons (show isSpace ',' = false by decide), if_neg closes.ne_comma.symm, if_true,
      later]
    rfl

/-- The text begins with neither white space nor the closing mark. -/
def Opens (close : Char) (front : List Char) : Prop :=
  ∃ char others, front = char :: others ∧ isSpace char = false ∧ char ≠ close

/-- Items behind an opening mark are read up to the closing one. -/
theorem readSequence?_written (closes : Closes close) {lead : List Char} (leading : IsSpacing lead)
    (spacing : IsSpacing space) (opens : Opens close front)
    (read : ∀ rest, EndsValue rest → item (front ++ rest) = some (first, rest))
    (reads : ReadsAll item write items) (rest : List Char) :
    readSequence? item close (lead ++ (front ++ (writtenTail write space close items ++ rest))) =
      some (first :: items, rest) := by
  obtain ⟨char, others, parts, visible, other⟩ := opens
  have room := length_lt_writtenTail write space close items
  have read := @readItems?_written _ _ _ _ _ _ _ _ closes spacing read reads
    ((others ++ (writtenTail write space close items ++ rest)).length + 1)
    (by simp only [List.length_append]; omega) rest
  rw [parts, List.cons_append] at read ⊢
  rw [readSequence?, skipSpace_append leading, skipSpace_cons visible]
  simp only [if_neg other, read]

theorem readSequence?_close (closes : Closes close) (rest : List Char) :
    readSequence? item close (close :: rest) = some ([], rest) := by
  simp [readSequence?, skipSpace_cons closes.solid]

end Sequence

/-- What is written for a value that holds no other values begins like no other value. -/
theorem scalar_eq_cons {value : Json} (scalar : Fits 0 value) : ∃ first others,
    value.write = first :: others ∧ isSpace first = false ∧ first ∉ ['[', ']', '\x7b'] := by
  cases value with
  | null => exact ⟨'n', _, rfl, by decide, by decide⟩
  | bool value =>
    cases value with
    | true => exact ⟨'t', _, rfl, by decide, by decide⟩
    | false => exact ⟨'f', _, rfl, by decide, by decide⟩
  | number value =>
    obtain ⟨first, others, same, other⟩ := numeral_eq_cons value
    simp only [List.mem_cons, List.not_mem_nil, or_false, not_or] at other
    exact ⟨first, others, same, by simp [isSpace, other], by simp [other]⟩
  | string value => exact ⟨'"', _, rfl, by decide, by decide⟩
  | array items => exact scalar.elim
  | object fields => exact scalar.elim

theorem opens_of_scalar {value : Json} (scalar : Fits 0 value) : Opens ']' value.write := by
  obtain ⟨first, others, same, solid, other⟩ := scalar_eq_cons scalar
  exact ⟨first, others, same, solid, fun closing => other (by simp [closing])⟩

theorem opens_write (value : Json) : Opens ']' value.write := by
  cases value with
  | array items => cases items <;> exact ⟨'[', _, rfl, by decide, by decide⟩
  | object fields => cases fields <;> exact ⟨'\x7b', _, rfl, by decide, by decide⟩
  | _ => exact opens_of_scalar trivial

theorem opens_quote (text : String) (rest : List Char) : Opens '\x7d' (quote text ++ rest) :=
  ⟨'"', _, rfl, by decide, by decide⟩

theorem readField?_written {value : List Char → Option (Json × List Char)} {field : String × Json}
    {text rest : List Char} (read : value text = some (field.2, rest)) :
    readField? value (quote field.1 ++ ':' :: text) = some (field, rest) := by
  simp only [quote, List.cons_append, List.append_assoc, List.nil_append, readField?,
    skipSpace_cons (show isSpace '"' = false by decide),
    skipSpace_cons (show isSpace ':' = false by decide), readText?_quoted, read]
  simp

theorem readScalar?_written {value : Json} {rest : List Char} (fits : Fits 0 value)
    (ends : EndsValue rest) : readScalar? (value.write ++ rest) = some (value, rest) := by
  cases value with
  | null => rfl
  | bool value => cases value <;> rfl
  | number value =>
    obtain ⟨first, others, same, other⟩ := numeral_eq_cons value
    have read := readNumber?_numeral value ends.endsNumeral
    simp only [List.mem_cons, List.not_mem_nil, or_false, not_or] at other
    rw [write, same, List.cons_append] at *
    rw [readScalar?, read]
    · rfl
    all_goals simp_all
  | string value =>
    simp only [write, quote, List.cons_append, List.append_assoc, List.nil_append, readScalar?,
      readText?_quoted]
    simp
  | array items => exact fits.elim
  | object fields => exact fits.elim

theorem readValue?_scalar (depth : ℕ) {value : Json} {rest : List Char} (scalar : Fits 0 value)
    (ends : EndsValue rest) : readValue? depth (value.write ++ rest) = some (value, rest) := by
  obtain ⟨first, others, same, solid, other⟩ := scalar_eq_cons scalar
  have read := readScalar?_written scalar ends
  rw [same, List.cons_append] at read ⊢
  cases depth with
  | zero => rw [readValue?, skipSpace_cons solid, read]
  | succ depth =>
    simp only [List.mem_cons, List.not_mem_nil, or_false, not_or] at other
    rw [readValue?, skipSpace_cons solid]
    split
    · simp_all
    · simp_all
    · exact read

section Sequences

variable {depth : ℕ} {lead space front : List Char}

theorem readValue?_emptyArray (depth : ℕ) (rest : List Char) :
    readValue? (depth + 1) ('[' :: ']' :: rest) = some (.array [], rest) := by
  rw [readValue?, skipSpace_cons (by decide)]
  simp only [readSequence?_close (.inl rfl), Option.map_some]

theorem readValue?_emptyObject (depth : ℕ) (rest : List Char) :
    readValue? (depth + 1) ('\x7b' :: '\x7d' :: rest) = some (.object [], rest) := by
  rw [readValue?, skipSpace_cons (by decide)]
  simp only [readSequence?_close (.inr rfl), Option.map_some, ofFields, List.foldl_nil]

/-- An array is read if its items are, however they are written and set apart. -/
theorem readValue?_array {write : Json → List Char} {item : Json} {items : List Json}
    (leading : IsSpacing lead) (spacing : IsSpacing space) (opens : Opens ']' front)
    (read : ∀ rest, EndsValue rest → readValue? depth (front ++ rest) = some (item, rest))
    (reads : ReadsAll (readValue? depth) write items) (rest : List Char) :
    readValue? (depth + 1)
        ('[' :: (lead ++ (front ++ (writtenTail write space ']' items ++ rest)))) =
      some (.array (item :: items), rest) := by
  rw [readValue?, skipSpace_cons (by decide)]
  simp only [readSequence?_written (.inl rfl) leading spacing opens read reads, Option.map_some]

/-- An object is read if its fields are and their keys are in order. -/
theorem readValue?_object {write : String × Json → List Char} {field : String × Json}
    {fields : List (String × Json)} (sorted : Fields.Sorted (field :: fields))
    (leading : IsSpacing lead) (spacing : IsSpacing space) (opens : Opens '\x7d' front)
    (read : ∀ rest, EndsValue rest →
      readField? (readValue? depth) (front ++ rest) = some (field, rest))
    (reads : ReadsAll (readField? (readValue? depth)) write fields) (rest : List Char) :
    readValue? (depth + 1)
        ('\x7b' :: (lead ++ (front ++ (writtenTail write space '\x7d' fields ++ rest)))) =
      some (.object (field :: fields), rest) := by
  rw [readValue?, skipSpace_cons (by decide)]
  simp only [readSequence?_written (.inr rfl) leading spacing opens read reads, Option.map_some,
    ofFields_of_sorted sorted]

end Sequences

/-- A value is read back from what is written for it. -/
theorem readValue?_write {depth : ℕ} {value : Json} (fits : Fits depth value) {rest : List Char}
    (ends : EndsValue rest) : readValue? depth (value.write ++ rest) = some (value, rest) := by
  induction depth generalizing value rest with
  | zero => exact readValue?_scalar 0 fits ends
  | succ depth ih =>
    cases value with
    | array items =>
      cases items with
      | nil => exact readValue?_emptyArray depth rest
      | cons item items =>
        have reads : ReadsAll (readValue? depth) write (item :: items) :=
          fun value member rest ends => ih (fits value member) ends
        have read := readValue?_array isSpacing_nil isSpacing_nil (opens_write item)
          (reads item List.mem_cons_self)
          (fun value member => reads value (List.mem_cons_of_mem _ member)) rest
        simpa only [write, writeItems_eq, List.cons_append, List.append_assoc, List.nil_append]
          using read
    | object fields =>
      cases fields with
      | nil => exact readValue?_emptyObject depth rest
      | cons field fields =>
        have reads : ReadsAll (readField? (readValue? depth)) writeField (field :: fields) := by
          intro field member rest ends
          rw [writeField, List.append_assoc, List.cons_append]
          exact readField?_written (ih (fits.2 field member) ends)
        have read := readValue?_object fits.1 isSpacing_nil isSpacing_nil
          (opens_quote field.1 (':' :: field.2.write)) (reads field List.mem_cons_self)
          (fun value member => reads value (List.mem_cons_of_mem _ member)) rest
        simpa only [write, writeFields_eq, List.cons_append, List.append_assoc, List.nil_append]
          using read
    | _ => exact readValue?_scalar _ trivial ends

theorem ofText?_compactText {value : Json} (fits : Fits nestingLimit value) :
    ofText? value.compactText = some value := by
  have read := @readValue?_write _ _ fits [] (by simp [EndsValue])
  rw [List.append_nil] at read
  simp [ofText?, compactText, read, skipSpace]

section Reading

theorem fits_of_readScalar? {input rest : List Char} {value : Json}
    (found : readScalar? input = some (value, rest)) : Fits 0 value := by
  unfold readScalar? at found
  split at found
  all_goals
    obtain ⟨read, -, same⟩ := Option.map_eq_some_iff.mp found
    obtain ⟨rfl, -⟩ := Prod.mk.inj same
    trivial

/-- The items of a sequence are read one by one. -/
theorem mem_of_readItems? {α : Type} {item : List Char → Option (α × List Char)} {close : Char}
    {room : ℕ} {input rest : List Char} {items : List α}
    (found : readItems? item close room input = some (items, rest)) :
    ∀ value ∈ items, ∃ front behind, item front = some (value, behind) := by
  induction room generalizing input rest items with
  | zero => cases found
  | succ room ih =>
    rw [readItems?] at found
    split at found
    · cases found
    · rename_i first behind read
      split at found
      · cases found
      · split at found
        · obtain ⟨rfl, -⟩ := Prod.mk.inj (Option.some.inj found)
          intro value member
          obtain rfl := List.mem_singleton.mp member
          exact ⟨input, behind, read⟩
        · split at found
          · obtain ⟨⟨later, behind'⟩, readLater, same⟩ := Option.map_eq_some_iff.mp found
            obtain ⟨rfl, -⟩ := Prod.mk.inj same
            intro value member
            rcases List.mem_cons.mp member with rfl | inside
            · exact ⟨input, behind, read⟩
            · exact ih readLater value inside
          · cases found

theorem mem_of_readSequence? {α : Type} {item : List Char → Option (α × List Char)} {close : Char}
    {input rest : List Char} {items : List α}
    (found : readSequence? item close input = some (items, rest)) :
    ∀ value ∈ items, ∃ front behind, item front = some (value, behind) := by
  unfold readSequence? at found
  split at found
  · cases found
  · split at found
    · obtain ⟨rfl, -⟩ := Prod.mk.inj (Option.some.inj found)
      simp
    · exact mem_of_readItems? found

theorem value_of_readField? {value : List Char → Option (Json × List Char)} {input rest : List Char}
    {field : String × Json} (found : readField? value input = some (field, rest)) :
    ∃ front, value front = some (field.2, rest) := by
  unfold readField? at found
  split at found
  · split at found
    · cases found
    · split at found
      · rename_i front _
        obtain ⟨⟨inner, behind⟩, read, same⟩ := Option.map_eq_some_iff.mp found
        obtain ⟨rfl, rfl⟩ := Prod.mk.inj same
        exact ⟨front, read⟩
      · cases found
  · cases found

/-- What is read is nested no deeper than the reader goes, and its keys are in order. -/
theorem fits_of_readValue? {depth : ℕ} {input rest : List Char} {value : Json}
    (found : readValue? depth input = some (value, rest)) : Fits depth value := by
  induction depth generalizing input rest value with
  | zero => exact fits_of_readScalar? found
  | succ depth ih =>
    rw [readValue?] at found
    split at found
    · obtain ⟨⟨items, behind⟩, read, same⟩ := Option.map_eq_some_iff.mp found
      obtain ⟨rfl, -⟩ := Prod.mk.inj same
      intro item member
      obtain ⟨front, after, readItem⟩ := mem_of_readSequence? read item member
      exact ih readItem
    · obtain ⟨⟨fields, behind⟩, read, same⟩ := Option.map_eq_some_iff.mp found
      obtain ⟨rfl, -⟩ := Prod.mk.inj same
      refine fits_ofFields fun field member => ?_
      obtain ⟨front, after, readField⟩ := mem_of_readSequence? read field member
      obtain ⟨start, readInner⟩ := value_of_readField? readField
      exact ih readInner
    · exact fits_of_scalar (fits_of_readScalar? found)

theorem fits_of_ofText? {text : String} {value : Json} (found : ofText? text = some value) :
    Fits nestingLimit value := by
  unfold ofText? at found
  split at found
  · rename_i read
    split at found
    · obtain rfl := Option.some.inj found
      exact fits_of_readValue? read
    · cases found
  · cases found

end Reading

end ConfigHeader.Json
