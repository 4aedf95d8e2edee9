import MatrixCalc.Proofs.Documents.Numerals
import MatrixCalc.Proofs.Documents.Reading
import MatrixCalc.Proofs.Results

/-!
# Results loaded again

The document of results lists values under their names, as the variables of a workspace are listed,
so it can be loaded as the variables of a new workspace.  A double that is no number is written as
nothing, and nothing is no double: then the document is refused.  Otherwise the workspace has the
results as its variables, bit for bit, provided that numerals are read as the nearest double.

* `Json.Numeral.ReadsNearest` : numerals are read as the nearest double.
* `Value.ofJson?_toJson` : a value of numbers is read back.
* `Workspace.loadWith_asVariables` : **results can be loaded unless one of them is no number**.
-/

namespace MatrixCalc

/-! ### Correct readers -/

namespace Json.Numeral

/-- Numerals are read as the nearest double, ties to even. -/
def ReadsNearest (read : Numeral → Option Float) : Prop :=
  ∀ n x, n.RoundsTo x → read n = some x

open Classical in
/-- The nearest double, if there is one. -/
noncomputable def nearest? (n : Numeral) : Option Float :=
  if rounds : ∃ x, n.RoundsTo x then some rounds.choose else none

theorem readsNearest_nearest? : ReadsNearest nearest? := by
  intro n x rounds
  have found : ∃ x, n.RoundsTo x := ⟨x, rounds⟩
  rw [nearest?, dif_pos found, found.choose_spec.unique rounds]

end Json.Numeral

/-! ### Values -/

namespace Value

/-- The doubles of the value are numbers. -/
def Finite : Value → Prop
  | .matrix rows => ∀ row ∈ rows, ∀ x ∈ row, x.isFinite = true
  | .double x => x.isFinite = true
  | .integer _ => True

instance : DecidablePred Finite
  | .matrix rows => inferInstanceAs (Decidable (∀ row ∈ rows, ∀ x ∈ row, x.isFinite = true))
  | .double x => inferInstanceAs (Decidable (x.isFinite = true))
  | .integer _ => .isTrue trivial

variable {read : Json.Numeral → Option Float} {x : Float} {value : Value}

theorem sound_floatToJson (x : Float) : (floatToJson x).Sound := by
  unfold floatToJson
  split
  · rename_i finite
    obtain ⟨⟨n, numeral, -⟩, parts⟩ := Json.Numeral.exists_of_write finite
    exact .number (by rw [numeral]; rfl) parts
  · exact .null

theorem sound_toJson (value : Value) : value.toJson.Sound := by
  have field {name : String} {document : Json} (sound : document.Sound) :
      (Json.object [(name, document)]).Sound :=
    .object fun field mem => by
      rw [List.mem_singleton.1 mem]
      exact sound
  cases value with
  | matrix rows =>
    refine field (.array fun document mem => ?_)
    obtain ⟨row, -, rfl⟩ := List.mem_map.1 mem
    refine .array fun document mem => ?_
    obtain ⟨x, -, rfl⟩ := List.mem_map.1 mem
    exact sound_floatToJson x
  | double x => exact field (sound_floatToJson x)
  | integer n =>
    obtain ⟨⟨numeral, same, -⟩, parts⟩ := Json.Numeral.exists_of_int64 n
    exact field (.number (by rw [same]; rfl) parts)

theorem float?_floatToJson (nearest : Json.Numeral.ReadsNearest read) (finite : x.isFinite = true) :
    (floatToJson x).float? read = some x := by
  obtain ⟨⟨n, numeral, rounds⟩, -⟩ := Json.Numeral.exists_of_write finite
  rw [floatToJson, if_pos finite, Json.float?, numeral, Option.bind_some, nearest n x rounds]

theorem float?_floatToJson_eq_none (infinite : x.isFinite ≠ true) :
    (floatToJson x).float? read = none := by
  rw [floatToJson, if_neg infinite, Json.float?]
  exact fun numeral same => Json.noConfusion same

/-! ### Documents -/

section Lists

variable {α β γ : Type} {f : β → Option γ} {g : α → β} {h : α → γ} {xs : List α}

theorem mapM_map_eq_some (each : ∀ x ∈ xs, f (g x) = some (h x)) :
    (xs.map g).mapM f = some (xs.map h) := by
  induction xs with
  | nil => rfl
  | cons x xs ih =>
    rw [List.map_cons, List.mapM_cons, each x List.mem_cons_self,
      ih fun x mem => each x (List.mem_cons_of_mem _ mem)]
    rfl

theorem mapM_eq_none {ys : List β} {y : β} (mem : y ∈ ys) (fails : f y = none) :
    ys.mapM f = none := by
  induction ys with
  | nil => cases mem
  | cons first ys ih =>
    rw [List.mapM_cons]
    rcases List.mem_cons.1 mem with rfl | mem
    · rw [fails]
      rfl
    · rw [ih mem]
      cases f first <;> rfl

end Lists

/-- The rows of a matrix are found in its document. -/
theorem ofJson?_matrix (rows : List (List Float)) : ofJson? read (matrix rows).toJson =
    ((rows.map (List.map floatToJson)).mapM (List.mapM (Json.float? read))).map matrix := by
  have items : (rows.map fun row => Json.array (row.map floatToJson)).mapM Json.items? =
      some (rows.map (List.map floatToJson)) :=
    mapM_map_eq_some fun _ _ => rfl
  rw [toJson, ofJson?, Json.items?, Option.bind_eq_bind, Option.bind_some, items,
    Option.map_eq_bind]
  rfl

/-- A value of numbers is read back. -/
theorem ofJson?_toJson (nearest : Json.Numeral.ReadsNearest read) (finite : value.Finite) :
    ofJson? read value.toJson = some value := by
  cases value with
  | matrix rows =>
    have row (row : List Float) (mem : row ∈ rows) :
        (row.map floatToJson).mapM (Json.float? read) = some row :=
      (mapM_map_eq_some fun x inside => float?_floatToJson nearest (finite row mem x inside)).trans
        (by rw [List.map_id'])
    rw [ofJson?_matrix, mapM_map_eq_some row, List.map_id', Option.map_some]
  | double x => rw [toJson, ofJson?, float?_floatToJson nearest finite, Option.map_some]
  | integer n =>
    obtain ⟨⟨numeral, same, whole⟩, -⟩ := Json.Numeral.exists_of_int64 n
    rw [toJson, ofJson?, Json.int64?, same, Option.bind_some, whole, Option.map_some]

/-- Another value is not read. -/
theorem ofJson?_toJson_eq_none (infinite : ¬value.Finite) : ofJson? read value.toJson = none := by
  cases value with
  | matrix rows =>
    obtain ⟨row, mem, x, inside, bad⟩ : ∃ row ∈ rows, ∃ x ∈ row, x.isFinite ≠ true := by
      simpa [Finite] using infinite
    have fails : (row.map floatToJson).mapM (Json.float? read) = none :=
      mapM_eq_none (List.mem_map_of_mem inside) (float?_floatToJson_eq_none bad)
    rw [ofJson?_matrix, mapM_eq_none (List.mem_map_of_mem (f := List.map floatToJson) mem) fails]
    rfl
  | double x => rw [toJson, ofJson?, float?_floatToJson_eq_none infinite, Option.map_none]
  | integer n => exact absurd trivial infinite

end Value

/-! ### Results as variables -/

namespace Results

/-- The doubles of the results are numbers. -/
def Finite (results : Results) : Prop := ∀ entry ∈ results.entries, entry.2.Finite

instance (results : Results) : Decidable results.Finite :=
  inferInstanceAs (Decidable (∀ entry ∈ results.entries, entry.2.Finite))

/-- The text of the workspace whose variables are the results. -/
def asVariables (results : Results) : String :=
  "\x7b\"variables\": " ++ results.document ++ "\x7d"

/-- The results as a tree. -/
def toJson (results : Results) : Json :=
  .object (results.entries.map fun entry => (entry.1, entry.2.toJson))

variable {read : Json.Numeral → Option Float} {V : Results}

theorem sound_toJson (V : Results) : V.toJson.Sound :=
  .object fun field mem => by
    obtain ⟨entry, -, rfl⟩ := List.mem_map.1 mem
    exact entry.2.sound_toJson

/-- The text is that of an object with one field. -/
theorem ofString?_asVariables (V : Results) :
    Json.ofString? V.asVariables = some (.object [("variables", V.toJson)]) := by
  have sound : (Json.object [("variables", V.toJson)]).Sound :=
    .object fun field mem => by
      rw [List.mem_singleton.1 mem]
      exact V.sound_toJson
  refine sound.ofString?_of_cuts ?_
  have opens : Json.Lexeme.Cuts ['\x7b'] [.openObject] :=
    Json.Lexeme.cuts_single (by decide) fun _ => rfl
  have closes : Json.Lexeme.Cuts ['\x7d'] [.closeObject] :=
    Json.Lexeme.cuts_single (by decide) fun _ => rfl
  have field : Json.Lexeme.Cuts (Json.quote "variables" ++ ": " ++ V.toJson.prettyAt 0).toList
      (.string (some "variables") :: .colon :: V.toJson.words) :=
    Json.cuts_field (V.sound_toJson.cuts_prettyAt 0)
  have text : V.asVariables.toList = ['\x7b'] ++
      ((Json.quote "variables" ++ ": " ++ V.toJson.prettyAt 0).toList ++ ['\x7d']) := by
    simp only [asVariables, String.toList_append]
    rfl
  have words : (Json.object [("variables", V.toJson)]).words = [.openObject] ++
      ((.string (some "variables") :: .colon :: V.toJson.words) ++ [.closeObject]) := by
    simp [Json.words, Json.fieldWords]
  rw [text, words]
  exact opens.append (field.append closes ⟨'\x7d', rfl, by decide⟩)
    ⟨'"', by simp [Json.quote], by decide⟩

/-- Results in order are entered one behind the other. -/
theorem foldl_insert {entries : List (String × Value)} (table : Results)
    (behind : ∀ old ∈ table.entries, ∀ entry ∈ entries, old.1 < entry.1)
    (sorted : (entries.map Prod.fst).Pairwise (· < ·)) :
    (entries.foldl (fun table entry => table.insert entry.1 entry.2) table).entries =
      table.entries ++ entries := by
  induction entries generalizing table with
  | nil => exact (List.append_nil _).symm
  | cons entry entries ih =>
    obtain ⟨first, sorted⟩ := List.pairwise_cons.1 sorted
    have last : ∀ old ∈ table.entries, old.1 < entry.1 := fun old mem =>
      behind old mem entry List.mem_cons_self
    have inserted := (Bindings.insert_of_behind last entry.2).2
    rw [List.foldl_cons, ih _ ?_ sorted, inserted, List.append_assoc]
    · rfl
    · rw [inserted, List.forall_mem_append, List.forall_mem_singleton]
      exact ⟨fun old mem later inside => behind old mem later (List.mem_cons_of_mem _ inside),
        fun later inside => first later.1 (List.mem_map_of_mem inside)⟩

end Results

/-! ### Loading -/

namespace Workspace

variable {read : Json.Numeral → Option Float} {V : Results}

/-- Only the variables are given. -/
theorem ofJson?_variables (document : Json) :
    ofJson? read (.object [("variables", document)]) =
      (variablesOf? read document).map fun definitions => { definitions } := by
  have given : onlyField? "variables" [("variables", document)] = some (some document) := by rfl
  have missing : onlyField? "equations" [("variables", document)] = some none := by rfl
  rw [ofJson?, given, missing, Option.map_eq_bind]
  rfl

theorem variablesOf?_toJson (nearest : Json.Numeral.ReadsNearest read) (sorted : V.Sorted)
    (finite : V.Finite) : variablesOf? read V.toJson = some V := by
  have values : (V.entries.map fun entry => (entry.1, entry.2.toJson)).mapM
      (fun field => (Value.ofJson? read field.2).map (field.1, ·)) = some (V.entries.map id) :=
    Value.mapM_map_eq_some fun entry mem => by
      rw [Value.ofJson?_toJson nearest (finite entry mem)]
      rfl
  have whole := Results.foldl_insert {} (by simp) sorted
  rw [variablesOf?, Results.toJson, Json.fields?, Option.bind_eq_bind, Option.bind_some, values,
    List.map_id]
  exact congrArg (fun entries => some (Bindings.mk entries)) whole

theorem variablesOf?_toJson_eq_none (infinite : ¬V.Finite) :
    variablesOf? read V.toJson = none := by
  obtain ⟨entry, mem, bad⟩ : ∃ entry ∈ V.entries, ¬entry.2.Finite := by
    simpa [Results.Finite] using infinite
  rw [variablesOf?, Results.toJson, Json.fields?, Option.bind_eq_bind, Option.bind_some,
    Value.mapM_eq_none (List.mem_map_of_mem mem)]
  · rfl
  · rw [Value.ofJson?_toJson_eq_none bad, Option.map_none]

/-- The values of variables are not ragged. -/
theorem firstRagged?_of_loads {entries : List (String × Value)}
    (loads : ∀ entry ∈ entries, entry.2.Loads) : firstRagged? entries = none := by
  induction entries with
  | nil => rfl
  | cons entry entries ih =>
    obtain ⟨name, value⟩ := entry
    have rest := ih fun entry mem => loads entry (List.mem_cons_of_mem _ mem)
    have even : raggedIn? value = none := by
      cases value with
      | matrix rows =>
        obtain ⟨m, rows, -⟩ := loads _ List.mem_cons_self
        rw [raggedIn?, rows]
      | double x => rfl
      | integer n => rfl
    rw [firstRagged?, even]
    exact rest

/-- Results of numbers are loaded. -/
theorem loadWith_of_finite (nearest : Json.Numeral.ReadsNearest read) (canonical : V.Canonical)
    (finite : V.Finite) : (loadWith read V.asVariables).1 = .ok { definitions := V } := by
  unfold loadWith
  rw [V.ofString?_asVariables, Option.bind_some, ofJson?_variables,
    variablesOf?_toJson nearest canonical.sorted finite, Option.map_some]
  dsimp only
  rw [firstRagged?_of_loads canonical.loads]

/-- Other results are refused, however numerals are read. -/
theorem loadWith_of_not_finite (infinite : ¬V.Finite) :
    (loadWith read V.asVariables).1 = .error .notAWorkspace := by
  unfold loadWith
  rw [V.ofString?_asVariables, Option.bind_some, ofJson?_variables,
    variablesOf?_toJson_eq_none infinite, Option.map_none]

/-- **Results can be loaded unless one of them is no number.**  The document of the results of a
run, as the variables of a workspace, is loaded as the workspace with exactly these variables, and
it is refused iff a double in the results is infinite or no number. -/
theorem loadWith_asVariables (nearest : Json.Numeral.ReadsNearest read) {workspace : Workspace}
    {further : List String} (ok : (run workspace further).1 = .ok V) :
    (V.Finite → (loadWith read V.asVariables).1 = .ok { definitions := V }) ∧
      (¬V.Finite → (loadWith read V.asVariables).1 = .error .notAWorkspace) :=
  ⟨loadWith_of_finite nearest (canonical_of_run ok), loadWith_of_not_finite⟩

/-- A number that needs all its digits, a negative one, a negative integer and a matrix without
rows. -/
theorem loadWith_asVariables_of_mixed : ∃ V : Results,
    (run { definitions := ⟨[("A", .matrix [[1.0, -2.5]]), ("n", .integer (-3))]⟩
           statements := ["x = 0.1*3.0"] } ["B = A*x", "E = []"]).1 = .ok V ∧
    V.report = "A = [1x2]\n      1.0000    -2.5000\nB = [1x2]\n      0.3000    -0.7500\n" ++
      "E = [0x0]\nn = -3\nx = 0.30000000000000004\n" ∧
    (loadWith Json.Numeral.nearest? V.asVariables).1 = .ok { definitions := V } := by
  let workspace : Workspace :=
    { definitions := ⟨[("A", .matrix [[1.0, -2.5]]), ("n", .integer (-3))]⟩
      statements := ["x = 0.1*3.0"] }
  have computed : (run workspace ["B = A*x", "E = []"]).1.toOption.map
      (fun V : Results => (V.report, decide V.Finite)) =
      some ("A = [1x2]\n      1.0000    -2.5000\nB = [1x2]\n      0.3000    -0.7500\n" ++
        "E = [0x0]\nn = -3\nx = 0.30000000000000004\n", true) := by
    decide +kernel
  cases ok : (run workspace ["B = A*x", "E = []"]).1 with
  | error cause =>
    rw [ok] at computed
    cases computed
  | ok V =>
    rw [ok] at computed
    obtain ⟨report, finite⟩ := Prod.mk.inj (Option.some.inj computed)
    exact ⟨V, rfl, report,
      (loadWith_asVariables Json.Numeral.readsNearest_nearest? ok).1 (of_decide_eq_true finite)⟩

/-- Zero divided by zero is no number, so the document of these results is refused by every
reader. -/
theorem loadWith_asVariables_of_zero_div_zero : ∃ V : Results,
    (run { definitions := ⟨[("z", .double 0.0)]⟩, statements := ["x = z/z"] } []).1 = .ok V ∧
    V.report = "x = NaN\nz = 0\n" ∧
    ∀ read, (loadWith read V.asVariables).1 = .error .notAWorkspace := by
  let workspace : Workspace :=
    { definitions := ⟨[("z", .double 0.0)]⟩, statements := ["x = z/z"] }
  have computed : (run workspace []).1.toOption.map
      (fun V : Results => (V.report, decide V.Finite)) = some ("x = NaN\nz = 0\n", false) := by
    decide +kernel
  cases ok : (run workspace []).1 with
  | error cause =>
    rw [ok] at computed
    cases computed
  | ok V =>
    rw [ok] at computed
    obtain ⟨report, infinite⟩ := Prod.mk.inj (Option.some.inj computed)
    exact ⟨V, rfl, report, fun read => loadWith_of_not_finite (of_decide_eq_false infinite)⟩

end Workspace

end MatrixCalc
