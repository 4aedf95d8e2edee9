import Mathlib
import MatrixCalc.Json.Lexeme
import MatrixCalc.Json.Printer

/-!
# The words of a document

`Json.words` lists the words of a document without the blanks between them.  The text that is
written for a document is cut into these words: a text in quotes is read back character by
character, a numeral ends where it ends, and blanks are skipped.

* `Json.Lexeme.first?_quote` : **a text in quotes is read back**.
* `Json.Lexeme.Cuts` : a text is cut into words, whatever is around it.
* `Json.Sound` : documents without what cannot be written.
* `Json.Sound.cuts_prettyAt` : **the text of a document is cut into its words**.
-/

namespace MatrixCalc

namespace Json

/-! ### Strings -/

namespace Lexeme

/-- A digit is read back. -/
theorem hexDigit?_hexDigit {n : Nat} (h : n < 16) : hexDigit? (hexDigit n) = some n := by
  interval_cases n <;> decide

theorem hex?_hexDigit {n : Nat} (h : n < 256) :
    hex? '0' '0' (hexDigit (n / 16)) (hexDigit (n % 16)) = some n := by
  have zero : hexDigit? '0' = some 0 := by decide
  have high := hexDigit?_hexDigit (n := n / 16) (by omega)
  have low := hexDigit?_hexDigit (n := n % 16) (by omega)
  simp only [hex?, zero, high, low, Option.bind_eq_bind, Option.bind_some, pure]
  congr 1
  omega

/-- A short escape means its character. -/
theorem stringUnits_short (units : List Nat) {short c : Char} (rest : List Char)
    (means : escaped? short = some c) :
    stringUnits units ('\\' :: short :: rest) = stringUnits (c.toNat :: units) rest := by
  rw [stringUnits, means]
  rintro _ _ _ _ _ rfl
  cases means

/-- Other characters mean themselves. -/
theorem stringUnits_self (units : List Nat) {c : Char} (rest : List Char) (quote : c ≠ '"')
    (backslash : c ≠ '\\') (visible : ¬c < ' ') :
    stringUnits units (c :: rest) = stringUnits (c.toNat :: units) rest := by
  rw [stringUnits, if_neg (not_or.2 ⟨visible, backslash⟩)]
  · exact quote
  · exact fun _ _ _ _ _ same _ => backslash same
  · exact fun _ _ same _ => backslash same

/-- A character is read as it was escaped. -/
theorem stringUnits_escape (units : List Nat) (c : Char) (rest : List Char) :
    stringUnits units (escape c ++ rest) = stringUnits (c.toNat :: units) rest := by
  unfold escape
  split_ifs with h₁ h₂ h₃ h₄ h₅ h₆ h₇ h₈
  any_goals
    subst c
    exact stringUnits_short units rest rfl
  · have small : c.toNat < 32 := h₈
    have unit := hex?_hexDigit (n := c.toNat) (by omega)
    change stringUnits units ('\\' :: 'u' :: '0' :: '0' :: _ :: _ :: rest) = _
    rw [stringUnits, unit]
  · exact stringUnits_self units rest h₁ h₂ h₈

theorem stringUnits_flatMap_escape (units : List Nat) (cs rest : List Char) :
    stringUnits units (cs.flatMap escape ++ '"' :: rest) =
      some (units.reverse ++ cs.map Char.toNat, rest) := by
  induction cs generalizing units with
  | nil => simp [stringUnits]
  | cons c cs ih =>
    rw [List.flatMap_cons, List.append_assoc, stringUnits_escape, ih]
    simp

/-- A character is no half of a surrogate pair. -/
theorem not_surrogate (c : Char) :
    isHighSurrogate c.toNat = false ∧ isLowSurrogate c.toNat = false := by
  have valid := c.valid
  have : c.toNat < 0xD800 ∨ 0xDFFF < c.toNat := by
    rcases valid with low | ⟨high, -⟩
    · exact .inl low
    · exact .inr high
  simp only [isHighSurrogate, isLowSurrogate, Bool.and_eq_false_iff, decide_eq_false_iff_not]
  omega

theorem pairUp?_map_toNat (cs : List Char) : pairUp? (cs.map Char.toNat) = some cs := by
  induction cs with
  | nil => rfl
  | cons c cs ih =>
    obtain ⟨high, low⟩ := not_surrogate c
    cases cs with
    | nil => simp [pairUp?, high, low, Char.ofNat_toNat]
    | cons d cs =>
      rw [List.map_cons, List.map_cons] at *
      rw [pairUp?, high, low, ih]
      simp [Char.ofNat_toNat]

/-- **A text in quotes is read back.** -/
theorem first?_quote (text : String) (rest : List Char) :
    first? ((quote text).toList ++ rest) = some (string (some text), rest) := by
  rw [quote, String.toList_ofList, List.cons_append, List.cons_append, List.append_assoc, first?,
    List.singleton_append, stringUnits_flatMap_escape, List.reverse_nil, List.nil_append,
    Option.map_some]
  dsimp only
  rw [pairUp?_map_toNat, Option.map_some, String.ofList_toList]

/-! ### Words of a text -/

/-- The text does not go on with a numeral. -/
def Apart (cs : List Char) : Prop := ∀ c ∈ cs.head?, isNumeralPart c = false

/-- The text is cut into the words, whatever is in front of it and unless a numeral goes on
behind. -/
def Cuts (cs : List Char) (words : List Lexeme) : Prop :=
  ∀ done rest, Apart rest → cut done (cs ++ rest) = cut (words.reverse ++ done) rest

theorem cut_word {done : List Lexeme} {c : Char} {cs rest : List Char} {word : Lexeme}
    (visible : isSpace c = false) (first : first? (c :: cs) = some (word, rest)) :
    cut done (c :: cs) = cut (word :: done) rest := by
  rw [cut, visible, if_neg Bool.false_ne_true]
  split
  · rename_i none
    cases none.symm.trans first
  · rename_i same
    cases same.symm.trans first
    rfl

theorem cut_space {done : List Lexeme} {c : Char} {cs : List Char} (space : isSpace c = true) :
    cut done (c :: cs) = cut done cs := by
  rw [cut, if_pos space]

/-- Texts one behind the other. -/
theorem Cuts.append {a b : List Char} {words words' : List Lexeme} (first : Cuts a words)
    (second : Cuts b words') (apart : ∃ c ∈ b.head?, isNumeralPart c = false) :
    Cuts (a ++ b) (words ++ words') := by
  intro done rest free
  obtain ⟨c, head, other⟩ := apart
  have between : Apart (b ++ rest) := by
    intro c' head'
    rw [List.head?_append, Option.mem_def.1 head] at head'
    cases head'
    exact other
  rw [List.append_assoc, first done _ between, second _ rest free, List.reverse_append,
    List.append_assoc]

theorem Cuts.behind_space {a b : List Char} {words : List Lexeme}
    (all : ∀ c ∈ a, isSpace c = true) (second : Cuts b words) : Cuts (a ++ b) words := by
  intro done rest free
  induction a with
  | nil => exact second done rest free
  | cons c a ih =>
    rw [List.cons_append, List.cons_append, cut_space (all c List.mem_cons_self)]
    exact ih fun c mem => all c (List.mem_cons_of_mem _ mem)

theorem cuts_nil : Cuts [] [] :=
  fun _ _ _ => rfl

theorem cuts_word {c : Char} {cs : List Char} {word : Lexeme} (visible : isSpace c = false)
    (first : ∀ rest, Apart rest → first? (c :: cs ++ rest) = some (word, rest)) :
    Cuts (c :: cs) [word] :=
  fun _ rest free => cut_word visible (first rest free)

theorem cuts_single {c : Char} {word : Lexeme} (visible : isSpace c = false)
    (first : ∀ rest, first? (c :: rest) = some (word, rest)) : Cuts [c] [word] :=
  cuts_word visible fun rest _ => first rest

theorem cuts_quote (text : String) : Cuts (quote text).toList [string (some text)] := by
  have first := fun rest (_ : Apart rest) => first?_quote text rest
  rw [quote, String.toList_ofList] at first ⊢
  exact cuts_word (by decide) first

theorem cuts_number {numeral : String} (read : (Numeral.ofString? numeral).isSome = true)
    (parts : ∀ c ∈ numeral.toList, isNumeralPart c = true) :
    Cuts numeral.toList [number numeral] := by
  have same : String.ofList numeral.toList = numeral := String.ofList_toList
  generalize numeral.toList = cs at *
  subst same
  cases cs with
  | nil => exact absurd read (by decide)
  | cons c cs =>
    have start := parts c List.mem_cons_self
    have other : ∀ x, isNumeralPart x = false → c ≠ x := by
      rintro x no rfl
      cases start.symm.trans no
    have visible : isSpace c = false := by
      simp [isSpace, other ' ' (by decide), other '\t' (by decide), other '\n' (by decide),
        other '\r' (by decide)]
    refine cuts_word visible fun rest free => ?_
    have behind : rest.takeWhile isNumeralPart = [] ∧ rest.dropWhile isNumeralPart = rest := by
      cases rest with
      | nil => exact ⟨rfl, rfl⟩
      | cons c rest => simp [free c rfl]
    unfold first?
    split
    case h_11 =>
      rw [List.takeWhile_append_of_pos parts, List.dropWhile_append_of_pos parts, behind.1,
        behind.2, List.append_nil]
      exact if_pos read
    all_goals
      rename_i same
      exact absurd (List.cons.inj same).1 (other _ (by decide))

end Lexeme

/-! ### Documents -/

/-- A document as the reader knows it: what is written as a number is a numeral, and every string
spells a text. -/
inductive Sound : Json → Prop where
  | null : Sound .null
  | bool (value : Bool) : Sound (.bool value)
  | number {numeral : String} (read : (Numeral.ofString? numeral).isSome = true)
      (parts : ∀ c ∈ numeral.toList, Lexeme.isNumeralPart c = true) : Sound (.number numeral)
  | string (text : String) : Sound (.string text)
  | array {items : List Json} (all : ∀ item ∈ items, Sound item) : Sound (.array items)
  | object {fields : List (String × Json)} (all : ∀ field ∈ fields, Sound field.2) :
      Sound (.object fields)

mutual

/-- The words of a document. -/
def words : Json → List Lexeme
  | null => [.null]
  | garbled => [.null]
  | bool value => [.bool value]
  | number numeral => [.number numeral]
  | string text => [.string (some text)]
  | array items => .openArray :: ([Lexeme.comma].intercalate (itemWords items) ++ [.closeArray])
  | object fields =>
    .openObject :: ([Lexeme.comma].intercalate (fieldWords fields) ++ [.closeObject])

/-- The words of values. -/
def itemWords : List Json → List (List Lexeme)
  | [] => []
  | item :: items => words item :: itemWords items

/-- The words of named values. -/
def fieldWords : List (String × Json) → List (List Lexeme)
  | [] => []
  | (name, value) :: fields => (.string (some name) :: .colon :: words value) :: fieldWords fields

end

theorem prettyItems_eq_map (level : Nat) (items : List Json) :
    prettyItems level items = items.map (prettyAt level) := by
  induction items with
  | nil => rfl
  | cons item items ih => rw [prettyItems, ih, List.map_cons]

theorem prettyFields_eq_map (level : Nat) (fields : List (String × Json)) :
    prettyFields level fields =
      fields.map fun field => quote field.1 ++ ": " ++ prettyAt level field.2 := by
  induction fields with
  | nil => rfl
  | cons field fields ih => rw [prettyFields, ih, List.map_cons]

theorem itemWords_eq_map (items : List Json) : itemWords items = items.map words := by
  induction items with
  | nil => rfl
  | cons item items ih => rw [itemWords, ih, List.map_cons]

theorem fieldWords_eq_map (fields : List (String × Json)) : fieldWords fields =
    fields.map fun field => .string (some field.1) :: .colon :: words field.2 := by
  induction fields with
  | nil => rfl
  | cons field fields ih => rw [fieldWords, ih, List.map_cons]

/-! ### Cutting a document -/

section Cutting

open Lexeme

theorem toList_indent (level : Nat) :
    (indent level).toList = '\n' :: List.replicate (2 * level) ' ' := by
  rw [indent, String.toList_append, String.toList_ofList, String.toList_ofList]
  rfl

theorem cuts_indent {cs : List Char} {words : List Lexeme} (level : Nat) (cuts : Cuts cs words) :
    Cuts ((indent level).toList ++ cs) words := by
  refine cuts.behind_space fun c mem => ?_
  rw [toList_indent] at mem
  rcases List.mem_cons.1 mem with rfl | mem
  · rfl
  · rw [List.eq_of_mem_replicate mem]
    rfl

/-- A line break is no part of a numeral. -/
theorem apart_indent (level : Nat) (cs : List Char) :
    ∃ c ∈ ((indent level).toList ++ cs).head?, isNumeralPart c = false := by
  rw [toList_indent]
  exact ⟨'\n', rfl, by decide⟩

variable {α : Type} {line : α → String} {lineWords : α → List Lexeme} {xs : List α}

/-- Lines with commas between them. -/
theorem cuts_intercalate (level : Nat) (each : ∀ x ∈ xs, Cuts (line x).toList (lineWords x)) :
    Cuts (("," ++ indent level).intercalate (xs.map line)).toList
      ([Lexeme.comma].intercalate (xs.map lineWords)) := by
  have comma : Cuts ",".toList [.comma] := cuts_single (by decide) fun _ => rfl
  induction xs with
  | nil => exact cuts_nil
  | cons x xs ih =>
    have first := each x List.mem_cons_self
    have others := ih fun x mem => each x (List.mem_cons_of_mem _ mem)
    cases xs with
    | nil => simpa [String.toList_intercalate] using first
    | cons y ys =>
      simp only [List.map_cons, String.intercalate_cons_cons, List.intercalate_cons_cons,
        String.toList_append, List.append_assoc] at others ⊢
      exact first.append (comma.append (cuts_indent level others) (apart_indent level _))
        ⟨',', rfl, by decide⟩

/-- Lines between brackets. -/
theorem cuts_block {opening closing : String} {first last : Lexeme} (level : Nat)
    (opens : Cuts opening.toList [first]) (closes : Cuts closing.toList [last])
    (apart : ∃ c ∈ closing.toList.head?, isNumeralPart c = false)
    (each : ∀ x ∈ xs, Cuts (line x).toList (lineWords x)) :
    Cuts (block opening closing level (xs.map line)).toList
      (first :: ([Lexeme.comma].intercalate (xs.map lineWords) ++ [last])) := by
  have lines := cuts_intercalate (level + 1) each
  cases xs with
  | nil =>
    rw [List.map_nil, block, String.toList_append]
    exact opens.append closes apart
  | cons x xs =>
    rw [List.map_cons, block, ← List.map_cons]
    · simp only [String.toList_append, List.append_assoc]
      exact opens.append (cuts_indent _ (lines.append (cuts_indent _ closes) (apart_indent _ _)))
        (apart_indent _ _)
    · exact List.cons_ne_nil _ _

/-- A name and its value. -/
theorem cuts_field {name : String} {value : String} {words : List Lexeme}
    (cuts : Cuts value.toList words) :
    Cuts (quote name ++ ": " ++ value).toList (.string (some name) :: .colon :: words) := by
  have colon : Cuts [':'] [.colon] := cuts_single (by decide) fun _ => rfl
  have space : ∀ c ∈ [' '], isSpace c = true := fun c mem => by
    rw [List.mem_singleton.1 mem]
    rfl
  have between : ": ".toList = [':'] ++ [' '] := rfl
  rw [String.toList_append, String.toList_append, between, List.append_assoc, List.append_assoc]
  exact (cuts_quote name).append (colon.append (cuts.behind_space space) ⟨' ', rfl, by decide⟩)
    ⟨':', rfl, by decide⟩

/-- **The text of a document is cut into its words.** -/
theorem Sound.cuts_prettyAt {document : Json} (sound : document.Sound) (level : Nat) :
    Cuts (prettyAt level document).toList document.words := by
  induction sound generalizing level with
  | null =>
    have word : Cuts ['n', 'u', 'l', 'l'] [.null] := cuts_word (by decide) fun _ _ => rfl
    rw [prettyAt, words]
    exact word
  | bool value =>
    have yes : Cuts ['t', 'r', 'u', 'e'] [.bool true] := cuts_word (by decide) fun _ _ => rfl
    have no : Cuts ['f', 'a', 'l', 's', 'e'] [.bool false] := cuts_word (by decide) fun _ _ => rfl
    cases value with
    | true =>
      rw [prettyAt, words]
      exact yes
    | false =>
      rw [prettyAt, words]
      exact no
  | number read parts =>
    rw [prettyAt, words]
    exact cuts_number read parts
  | string text =>
    rw [prettyAt, words]
    exact cuts_quote text
  | array all ih =>
    have opens : Cuts ['['] [.openArray] := cuts_single (by decide) fun _ => rfl
    have closes : Cuts [']'] [.closeArray] := cuts_single (by decide) fun _ => rfl
    rw [prettyAt, words, prettyItems_eq_map, itemWords_eq_map]
    exact cuts_block level opens closes ⟨']', rfl, by decide⟩ fun item mem => ih item mem _
  | object all ih =>
    have opens : Cuts ['\x7b'] [.openObject] := cuts_single (by decide) fun _ => rfl
    have closes : Cuts ['\x7d'] [.closeObject] := cuts_single (by decide) fun _ => rfl
    rw [prettyAt, words, prettyFields_eq_map, fieldWords_eq_map]
    exact cuts_block level opens closes ⟨'\x7d', rfl, by decide⟩ fun field mem =>
      cuts_field (ih field mem _)

end Cutting

end Json

end MatrixCalc
