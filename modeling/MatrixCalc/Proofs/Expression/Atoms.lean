import MatrixCalc.Proofs.Expression.Layouts
import MatrixCalc.Proofs.Lexing

/-!
# Trees of names and whole numbers

The leaves of these trees are names of variables and natural numbers below `2 ^ 63`, which are
written in digits.  A tree is printed with no more brackets than its precedences need, and with a
blank behind each unary minus, which keeps the minus sign from a number that follows.

* `Expression.Atom` : a name or a whole number.
* `Expression.spaced` : the text of a tree of these.
* `Expression.spells_spaced` : **the text of an assignment is read as the tree**.
-/

namespace MatrixCalc

namespace Expression

open Token

/-- What is written between operators: the name of a variable, or a whole number without a sign. -/
inductive Atom where
  | name (name : String)
  | literal (n : Nat) (small : n < 2 ^ 63)

/-- A whole number in digits. -/
def Number.ofNat (n : Nat) (small : n < 2 ^ 63) : Number where
  numeral := ⟨(toString n).toList, none, none⟩
  wellFormed := by
    obtain ⟨first, digits, chars, start, all, -⟩ := exists_digits n
    rw [chars]
    exact ⟨List.forall_mem_cons.2 ⟨start, all⟩, by simp, by simp, by simp⟩
  value := .inl (Int64.ofNat n)
  token_eq := by
    obtain ⟨first, digits, chars, -, -, value⟩ := exists_digits n
    simp only [Numeral.token, Option.isNone_none, Bool.and_self, if_true, chars, value]
    exact if_pos small

theorem Number.chars_ofNat (n : Nat) (small : n < 2 ^ 63) :
    (Number.ofNat n small).numeral.chars = (toString n).toList := by
  simp [ofNat, Numeral.chars, Numeral.fractionChars, Numeral.exponentChars]

namespace Atom

/-- The operand that is written. -/
def operand : Atom → Operand
  | name x => .word x
  | literal n small => .number false (.ofNat n small)

/-- How it is written. -/
def text : Atom → String
  | name x => x
  | literal n _ => toString n

end Atom

/-- A piece of a tree as it is printed. -/
def pieceText : Symbol ⊕ Atom → String
  | .inl .neg => "- "
  | .inl s => s.spelling
  | .inr a => a.text

/-- The text of a tree. -/
def spaced (e : Expression Atom) : String := String.join ((e.write 6 false).map pieceText)

/-- The characters of printed pieces. -/
def spacedChars (pieces : List (Symbol ⊕ Atom)) : List Char :=
  pieces.flatMap fun p => (pieceText p).toList

theorem spacedChars_append (pieces pieces' : List (Symbol ⊕ Atom)) :
    spacedChars (pieces ++ pieces') = spacedChars pieces ++ spacedChars pieces' :=
  List.flatMap_append

/-- Neither a name nor a number runs on into the text. -/
def Stops : List Char → Prop
  | [] => True
  | c :: rest => isWordPart c = false ∧ (c = '.' → Numeral.startsElementwise rest = true)

variable {cs : List Char} {pieces : List (Symbol ⊕ Atom)} {rest : List (Symbol ⊕ Operand)}
  {e : Expression Atom} {n depth : Nat} {signs : Bool}

theorem Stops.endsWord (h : Stops cs) : endsWord cs = true := by
  cases cs with
  | nil => rfl
  | cons c rest => simp [MatrixCalc.endsWord, h.1]

theorem Stops.endsAt (h : Stops cs) (n : Nat) (small : n < 2 ^ 63) :
    (Number.ofNat n small).numeral.EndsAt cs := by
  cases cs with
  | nil => trivial
  | cons c rest => exact ⟨h.1, h.2, by simp [Number.ofNat]⟩

/-- Every symbol stops what stands in front of it; a point makes an operator. -/
theorem stops_symbol (s : Symbol) (cs : List Char) : Stops (s.spelling.toList ++ cs) := by
  cases s
  case elementTimes | elementDivide | elementPower => exact ⟨by decide, fun _ => rfl⟩
  all_goals exact ⟨by decide, fun point => absurd point (by decide)⟩

theorem Spells.atom (a : Atom) (word : ∀ x, a = .name x → isIdentifier x = true)
    (stops : Stops cs) (more : Spells rest cs) :
    Spells (.inr a.operand :: rest) (a.text.toList ++ cs) := by
  cases a with
  | name x => exact .word (word x rfl) stops.endsWord more
  | literal n small =>
    have spells := Spells.number (.ofNat n small) (stops.endsAt n small) more
    rwa [Number.chars_ofNat] at spells

/-- Only a minus sign looks at what follows. -/
theorem Spells.other {s : Symbol} (other : s ≠ .neg) (more : Spells rest cs) :
    Spells (.inl s :: rest) (s.spelling.toList ++ cs) :=
  .symbol s (fun same => absurd same other) more

/-- The blank keeps a minus sign from what follows. -/
theorem Spells.minus (more : Spells rest cs) :
    Spells (.inl .neg :: rest) ((pieceText (.inl .neg)).toList ++ cs) :=
  .symbol .neg (fun _ => rfl) (.blank (by decide) more)

/-- A printed tree is spelled in front of anything that does not run on. -/
theorem Prints.spells (h : Prints n signs e pieces depth)
    (words : ∀ x, .name x ∈ e.leaves → isIdentifier x = true) (stops : Stops cs)
    (more : Spells rest cs) :
    Spells (pieces.map (Sum.map id Atom.operand) ++ rest) (spacedChars pieces ++ cs) := by
  induction h generalizing rest cs with
  | leaf a =>
    have one : spacedChars [.inr a] = a.text.toList := List.flatMap_singleton _ _
    rw [one]
    refine .atom a ?_ stops more
    rintro x rfl
    exact words x List.mem_cons_self
  | transpose _ _ ih =>
    rw [spacedChars_append, List.map_append, List.append_assoc, List.append_assoc]
    exact ih words (stops_symbol .transpose _) (.other (by decide) more)
  | sign _ ih | negate _ _ ih => exact .minus (ih words stops more)
  | @binary _ _ _ _ o l r pieces pieces' _ _ _ ihl ihr =>
    have left := fun x mem => words x (List.mem_append_left r.leaves mem)
    have right := fun x mem => words x (List.mem_append_right l.leaves mem)
    have operator : spacedChars (.inl o.symbol :: pieces') =
        o.symbol.spelling.toList ++ spacedChars pieces' := by
      cases o <;> rfl
    have behind : Spells (.inl o.symbol :: (pieces'.map (Sum.map id Atom.operand) ++ rest))
        (o.symbol.spelling.toList ++ (spacedChars pieces' ++ cs)) :=
      .other (by cases o <;> decide) (ihr right stops more)
    rw [spacedChars_append, operator, List.map_append, List.append_assoc, List.append_assoc,
      List.append_assoc]
    exact ihl left (stops_symbol o.symbol _) behind
  | @bracket _ _ _ _ pieces _ ih =>
    have chars : spacedChars (enclose pieces) ++ cs = Symbol.parenLeft.spelling.toList ++
        (spacedChars pieces ++ (Symbol.parenRight.spelling.toList ++ cs)) := by
      simp [enclose, spacedChars, pieceText]
    have inside := ih words (stops_symbol .parenRight cs) (.other (by decide) more)
    rw [chars, enclose, List.map_append, List.append_assoc]
    exact .other (by decide) inside

/-- **The text of an assignment is read as the tree**, whatever names and numbers stand in it. -/
theorem spells_spaced {target : String} (named : isIdentifier target = true)
    (words : ∀ x, .name x ∈ e.leaves → isIdentifier x = true) :
    Spells (.inr (.word target) :: .inl .assign ::
      (e.write 6 false).map (Sum.map id Atom.operand)) (target ++ " = " ++ e.spaced).toList := by
  have chars : (target ++ " = " ++ e.spaced).toList = target.toList ++ ' ' ::
      (Symbol.assign.spelling.toList ++ ' ' :: (spacedChars (e.write 6 false) ++ [])) := by
    have middle : (" = " : String).toList = [' ', '=', ' '] := rfl
    have sign : Symbol.assign.spelling.toList = ['='] := rfl
    simp [spaced, spacedChars, String.toList_join, middle, sign, List.flatMap_map]
  have stops : Stops [] := trivial
  have right := (prints_write 6 false e).spells words stops .nil
  rw [List.append_nil] at right
  rw [chars]
  exact .word named rfl (.blank (by decide) (.other (by decide) (.blank (by decide) right)))

end Expression

end MatrixCalc
