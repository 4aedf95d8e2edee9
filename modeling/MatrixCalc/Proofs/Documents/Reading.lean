import MatrixCalc.Json.Reader
import MatrixCalc.Proofs.Documents.Words

/-!
# Documents read back

The reader keeps the arrays and objects that are open on a stack.  Behind the words of a document it
goes on as behind the value itself, whatever is open, so a document that is written is read back.

* `Json.Sound.readValue_words` : **the words of a document are read as the document**.
* `Json.Sound.ofString?_pretty` : **a document that is written is read back**.
-/

namespace MatrixCalc

namespace Json

/-! ### Reading a document -/

section Reading

open Lexeme (comma colon closeArray closeObject openArray openObject)

variable {stack : List Frame} {rest : List Lexeme}

/-- A document does not start with a closing bracket. -/
theorem head_words (document : Json) :
    ∃ word more, document.words = word :: more ∧ word ≠ closeArray ∧ word ≠ closeObject := by
  cases document <;> rw [words] <;> refine ⟨_, _, rfl, ?_, ?_⟩ <;> intro same <;> cases same

/-- A document is not taken for a name. -/
theorem words_ne_name (document : Json) (more : ∀ more, rest ≠ colon :: more)
    (text : Option String) (more' : List Lexeme) :
    document.words ++ rest ≠ .string text :: colon :: more' := by
  intro same
  cases document <;> rw [words] at same <;> cases same
  exact more _ rfl

theorem readAfter_comma {done : List Json} {value : Json}
    (unnamed : ∀ text more, rest ≠ .string text :: colon :: more) :
    readAfter (.array done :: stack) value (comma :: rest) =
      readValue (.array (value :: done) :: stack) rest := by
  rw [readAfter]
  exact fun text more same => unnamed text more same

theorem intercalate_cons {α : Type} (separator : α) (first : List α) (others : List (List α)) :
    [separator].intercalate (first :: others) = first ++ others.flatMap (separator :: ·) := by
  induction others generalizing first with
  | nil => simp
  | cons second others ih =>
    rw [List.intercalate_cons_cons, ih second, List.flatMap_cons]
    simp

/-- The values of an array are read one after the other. -/
theorem readValue_items {item : Json} {items done : List Json}
    (each : ∀ item' ∈ item :: items, ∀ stack rest,
      readValue stack (item'.words ++ rest) = readAfter stack item' rest) :
    readValue (.array done :: stack)
        (item.words ++ ((items.map words).flatMap (comma :: ·) ++ closeArray :: rest)) =
      readAfter stack (array (done.reverse ++ item :: items)) rest := by
  induction items generalizing item done with
  | nil =>
    rw [each item List.mem_cons_self, List.map_nil, List.flatMap_nil, List.nil_append, readAfter,
      List.reverse_cons]
  | cons next items ih =>
    have others := @ih next (item :: done) fun item' mem => each item' (List.mem_cons_of_mem _ mem)
    have unnamed (text : Option String) (more : List Lexeme) : next.words ++
        ((items.map words).flatMap (comma :: ·) ++ closeArray :: rest) ≠
          .string text :: colon :: more := by
      refine next.words_ne_name (fun more' same => ?_) text more
      cases items <;> cases same
    rw [each item List.mem_cons_self, List.map_cons, List.flatMap_cons, List.append_assoc,
      List.cons_append, readAfter_comma unnamed, others, List.reverse_cons, List.append_assoc]
    rfl

/-- The names and values that are read so far. -/
theorem ofFields_reverse (fields : List (String × Json)) :
    ofFields (fields.map fun field => (some field.1, field.2)).reverse = object fields := by
  have named : (fields.map fun field => (some field.1, field.2)).mapM
      (fun field : Option String × Json => field.1.map (·, field.2)) = some fields := by
    induction fields with
    | nil => rfl
    | cons field fields ih => simp [List.mapM_cons, ih]
  rw [ofFields, List.reverse_reverse, named]

/-- The values of an object are read one after the other. -/
theorem readValue_fields {name : String} {value : Json} {fields : List (String × Json)}
    (done : List (String × Json)) (each : ∀ field ∈ (name, value) :: fields, ∀ stack rest,
      readValue stack (field.2.words ++ rest) = readAfter stack field.2 rest) :
    readValue (.object (done.map fun field => (some field.1, field.2)).reverse (some name) :: stack)
        (value.words ++ ((fieldWords fields).flatMap (comma :: ·) ++ closeObject :: rest)) =
      readAfter stack (object (done ++ (name, value) :: fields)) rest := by
  induction fields generalizing name value done with
  | nil =>
    have whole := ofFields_reverse (done ++ [(name, value)])
    rw [List.map_append, List.reverse_append] at whole
    rw [each (name, value) List.mem_cons_self, fieldWords, List.flatMap_nil, List.nil_append,
      readAfter, ← whole]
    rfl
  | cons field fields ih =>
    obtain ⟨next, value'⟩ := field
    have others := ih (done ++ [(name, value)]) fun field mem =>
      each field (List.mem_cons_of_mem _ mem)
    rw [List.map_append, List.reverse_append, List.append_assoc] at others
    rw [each (name, value) List.mem_cons_self, fieldWords, List.flatMap_cons, List.append_assoc,
      List.cons_append, List.cons_append, List.cons_append, readAfter]
    exact others

/-- **The words of a document are read as the document.** -/
theorem Sound.readValue_words {document : Json} (sound : document.Sound) (stack : List Frame)
    (rest : List Lexeme) :
    readValue stack (document.words ++ rest) = readAfter stack document rest := by
  induction sound generalizing stack rest with
  | null => rw [words, List.singleton_append, readValue]
  | bool value => rw [words, List.singleton_append, readValue]
  | number read parts => rw [words, List.singleton_append, readValue]
  | string text => rw [words, List.singleton_append, readValue, ofText]
  | @array items all ih =>
    rw [words, itemWords_eq_map, List.cons_append, List.append_assoc, List.singleton_append]
    cases items with
    | nil => rw [List.map_nil, List.intercalate_nil, List.nil_append, readValue]
    | cons item items =>
      obtain ⟨word, more, first, other, -⟩ := item.head_words
      rw [List.map_cons, intercalate_cons, List.append_assoc, readValue]
      · exact readValue_items ih
      · intro more' same
        rw [first] at same
        exact other (List.cons.inj same).1
  | @object fields all ih =>
    rw [words, List.cons_append, List.append_assoc, List.singleton_append]
    cases fields with
    | nil => rw [fieldWords, List.intercalate_nil, List.nil_append, readValue]
    | cons field fields =>
      obtain ⟨name, value⟩ := field
      rw [fieldWords, intercalate_cons, List.append_assoc, List.cons_append, List.cons_append,
        readValue]
      exact readValue_fields [] ih

/-- A text that is cut into the words of a document is that document. -/
theorem Sound.ofString?_of_cuts {document : Json} (sound : document.Sound) {text : String}
    (cuts : Lexeme.Cuts text.toList document.words) : ofString? text = some document := by
  have words : Lexeme.ofString? text = some document.words := by
    have cut := cuts [] [] (by simp [Lexeme.Apart])
    rw [List.append_nil, List.append_nil] at cut
    rw [Lexeme.ofString?, cut, Lexeme.cut, List.reverse_reverse]
  have read := sound.readValue_words [] []
  rw [List.append_nil] at read
  rw [ofString?, words, Option.bind_some, ofLexemes?, read, readAfter]

/-- **A document that is written is read back.** -/
theorem Sound.ofString?_pretty {document : Json} (sound : document.Sound) :
    ofString? document.pretty = some document :=
  sound.ofString?_of_cuts (sound.cuts_prettyAt 0)

end Reading

end Json

end MatrixCalc
